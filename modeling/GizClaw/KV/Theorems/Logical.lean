import GizClaw.Lib.Except
import GizClaw.KV.Logical

-- The groups of a mutation interleave checks and updates. Backends that check everything first need
-- to know what these checks amount to on the state that the groups start from.

namespace GizClaw.KV

open Function (update_self update_of_ne update)

variable {o : Option Options} {now : Time}

-- `none` is a record, `some ordered` a collection.
def Val.kind : Val → Option Bool
  | record .. => none
  | members ordered _ => some ordered

namespace Logical

variable {σ : Logical} {g g' : Group o} {gs : List (Group o)}

def members (σ : Logical) (now : Time) (e : EncKey) : Finset Bytes :=
  match σ.live now e with
  | some (.members _ s) => s
  | _ => ∅

-- The key of the group holds something that is not a collection of the group's kind.
def Mismatch (σ : Logical) (now : Time) (g : Group o) : Prop :=
  (σ.live now g.key.encode).any (·.kind ≠ some g.phase.ordered)

def Over (σ : Logical) (now : Time) (g : Group o) : Prop :=
  g.Exceeds (σ.members now g.key.encode).card (g.update (σ.members now g.key.encode)).card

instance : Decidable (σ.Mismatch now g) :=
  inferInstanceAs (Decidable (_ = true))

instance : Decidable (σ.Over now g) :=
  inferInstanceAs (Decidable (g.Exceeds _ _))

-- The update of a group without its checks.
def force (now : Time) (σ : Logical) (g : Group o) : Logical :=
  σ.store g.key.encode g.phase.ordered (g.update (σ.members now g.key.encode))

theorem live_update (σ : Logical) (e e' : EncKey) (v : Option Val) :
    live (update σ e v) now e' =
    if e' = e then v.filter (!·.expired now) else σ.live now e' := by
  unfold live
  split
  case isTrue h => rw [h, update_self]
  case isFalse h => rw [update_of_ne h]

theorem live_store (σ : Logical) (e e' : EncKey) (ordered : Bool) (s : Finset Bytes) :
    (σ.store e ordered s).live now e' =
    if e' = e then (if s = ∅ then none else some (.members ordered s)) else σ.live now e' := by
  rw [store, live_update]
  split
  case isFalse => rfl
  case isTrue => split <;> simp [Option.filter_some, Val.expired]

theorem members_store (σ : Logical) (e e' : EncKey) (ordered : Bool) (s : Finset Bytes) :
    (σ.store e ordered s).members now e' = if e' = e then s else σ.members now e' := by
  unfold members
  rw [live_store]
  by_cases he : e' = e <;> by_cases hs : s = ∅ <;> simp [he, hs]

theorem base_eq (σ : Logical) (g : Group o) :
    σ.base now g =
    if σ.Mismatch now g then .error .wrongType else .ok (σ.members now g.key.encode) := by
  have hm : σ.Mismatch now g ↔ (σ.live now g.key.encode).any (·.kind ≠ some g.phase.ordered) := .rfl
  simp only [hm, base, members]
  cases σ.live now g.key.encode
  case none => rfl
  case some v =>
    cases v
    case record => rfl
    case members ordered s => by_cases h : ordered = g.phase.ordered <;> simp [Val.kind, h]

theorem applyGroup_eq (hn : g.members ≠ []) :
    σ.applyGroup now g =
    if σ.Mismatch now g then .error .wrongType
    else if σ.Over now g then .error .memberLimit else .ok (σ.force now g) := by
  unfold applyGroup
  rw [if_neg hn, base_eq]
  split <;> rfl

theorem applyGroups_filter (gs : List (Group o)) :
    σ.applyGroups now (gs.filter (·.members ≠ [])) = σ.applyGroups now gs := by
  induction gs generalizing σ
  case nil => rfl
  case cons g gs hi =>
    by_cases hn : g.members = []
    case pos => simp [hn, applyGroups, applyGroup, ← hi]
    case neg =>
      rw [List.filter_cons_of_pos (by simpa using hn)]
      simp only [applyGroups, hi]

-- Once a group has succeeded, later groups of its kind cannot fail on their type under its key.
theorem mismatch_force (hm : ¬σ.Mismatch now g)
    (hk : g.key.encode = g'.key.encode → g.phase.ordered = g'.phase.ordered) :
    (σ.force now g).Mismatch now g' ↔ σ.Mismatch now g' := by
  unfold Mismatch force at *
  rw [live_store]
  by_cases he : g'.key.encode = g.key.encode
  case neg => rw [if_neg he]
  case pos =>
    rw [if_pos he, he, ← hk he.symm]
    refine iff_of_false ?_ hm
    split <;> simp [Val.kind]

-- No group exceeds its limit, given that those before it were applied.
def Within (σ : Logical) (now : Time) : List (Group o) → Prop
  | [] => True
  | g :: gs => ¬σ.Over now g ∧ (σ.force now g).Within now gs

def Consistent (gs : List (Group o)) : Prop :=
  gs.Pairwise fun g₁ g₂ => g₁.key.encode = g₂.key.encode → g₁.phase.ordered = g₂.phase.ordered

theorem applyGroups_cases (now : Time) (σ : Logical) (hn : ∀ g ∈ gs, g.members ≠ [])
    (hk : Consistent gs) :
    ((∀ g ∈ gs, ¬σ.Mismatch now g) ∧ σ.Within now gs ∧
      σ.applyGroups now gs = .ok (gs.foldl (force now) σ)) ∨
    (¬((∀ g ∈ gs, ¬σ.Mismatch now g) ∧ σ.Within now gs) ∧
      ∃ e, σ.applyGroups now gs = .error e ∧
        ((∀ g ∈ gs, ¬σ.Mismatch now g) → e = .memberLimit) ∧
        (σ.Within now gs → e = .wrongType)) := by
  induction gs generalizing σ
  case nil => exact .inl ⟨by simp, trivial, rfl⟩
  case cons g gs hi =>
    have ⟨hkg, hk⟩ := List.pairwise_cons.mp hk
    simp only [List.mem_cons, forall_eq_or_imp] at hn ⊢
    simp only [applyGroups, applyGroup_eq hn.left, Within]
    by_cases hm : σ.Mismatch now g
    case pos =>
      refine .inr ⟨fun h => h.left.left hm, .wrongType, ?_, fun h => absurd hm h.left, fun _ => rfl⟩
      simp only [hm, ↓reduceIte]
      rfl
    case neg =>
      by_cases ho : σ.Over now g
      case pos =>
        refine .inr ⟨fun h => h.right.left ho, .memberLimit, ?_, fun _ => rfl,
          fun h => absurd ho h.left⟩
        simp only [hm, ho, ↓reduceIte]
        rfl
      case neg =>
        have hf : (∀ g' ∈ gs, ¬(σ.force now g).Mismatch now g') ↔ ∀ g' ∈ gs, ¬σ.Mismatch now g' :=
          forall₂_congr fun g' h => not_congr (mismatch_force hm (hkg g' h))
        have hi := hi (σ.force now g) hn.right hk
        rw [hf] at hi
        simpa [hm, ho] using hi

theorem checkConditions_cons (σ : Logical) (c : Condition o) (cs : List (Condition o)) :
    σ.checkConditions now (c :: cs) = (do
      if ← σ.checkConditions now [c] then σ.checkConditions now cs else return false) := by
  simp only [checkConditions]
  cases c.expected <;> rcases σ.live now c.key.encode with _ | (_ | _) <;> try rfl
  case some.some.record x v d => by_cases hv : v = x <;> simp [hv, pure, Except.pure]

theorem checkConditions_error (h : σ.checkConditions now cs = .error err) : err = .wrongType := by
  induction cs
  case nil => contradiction
  case cons hi =>
    unfold checkConditions at h
    split at h
    case h_1 => exact hi h
    case h_2 | h_3 => contradiction
    case h_4 => exact (Except.error.inj h).symm
    case h_5 =>
      split at h
      case isTrue => exact hi h
      case isFalse => contradiction

theorem applyGroups_error
    (h : σ.applyGroups now gs = .error err) : err = .wrongType ∨ err = .memberLimit := by
  induction gs generalizing σ
  case nil => contradiction
  case cons g gs hi =>
    unfold applyGroups at h
    by_cases hn : g.members = []
    case pos =>
      simp only [applyGroup, hn, ↓reduceIte] at h
      exact hi h
    case neg =>
      rw [applyGroup_eq hn] at h
      split_ifs at h
      case pos => exact .inl (Except.error.inj h).symm
      case pos => exact .inr (Except.error.inj h).symm
      case neg => exact hi h

theorem putAll_cons (σ : Logical) (x : Entry o) (xs : List (Entry o)) :
    σ.putAll (x :: xs) = (σ.put x).putAll xs :=
  rfl

theorem deleteAll_cons (σ : Logical) (k : Key o) (ks : List (Key o)) :
    σ.deleteAll (k :: ks) = deleteAll (update σ k.encode none) ks :=
  rfl

-- Writing and deleting records forgets what was under their keys.
theorem records_congr {σ τ : Logical} (entries : List (Entry o)) (keys : List (Key o))
    (h : ∀ e, e ∉ entries.map (·.key.encode) → e ∉ keys.map Key.encode → σ e = τ e) :
    (σ.putAll entries).deleteAll keys = (τ.putAll entries).deleteAll keys := by
  induction entries generalizing σ τ
  case cons x xs hi =>
    refine hi fun e hx hk => ?_
    by_cases he : e = x.key.encode
    case pos => rw [he, put, put, update_self, update_self]
    case neg =>
      rw [put, put, update_of_ne he, update_of_ne he]
      exact h e (by simp [he, hx]) hk
  case nil =>
    simp only [List.map_nil, List.not_mem_nil, not_false_eq_true, true_implies] at h
    change σ.deleteAll keys = τ.deleteAll keys
    induction keys generalizing σ τ
    case nil => exact funext fun e => h e (by simp)
    case cons k ks hi =>
      rw [deleteAll_cons, deleteAll_cons]
      refine hi fun e hk => ?_
      by_cases he : e = k.encode
      case pos => rw [he, update_self, update_self]
      case neg =>
        rw [update_of_ne he, update_of_ne he]
        exact h e (by simp [he, hk])

-- The first guard that exists is a collection.
def collectionGuard (σ : Logical) (now : Time) : List (Entry o) → Bool
  | [] => false
  | guard :: guards =>
    match σ.live now guard.key.encode with
    | none => σ.collectionGuard now guards
    | some v => v.kind.isSome

theorem findGuard_of_collectionGuard (h : σ.collectionGuard now guards) :
    ∃ conflict, σ.findGuard now guards = some conflict := by
  induction guards
  case nil => contradiction
  case cons hi =>
    unfold collectionGuard at h
    unfold findGuard
    split at h
    case h_1 hl => simpa only [hl] using hi h
    case h_2 v hl => cases v <;> simp [hl]

section Alike

variable {τ : Logical}

-- Two states that show the same at a given time. They may differ in expired records, which backends
-- remove at different moments.
def Alike (now : Time) (σ τ : Logical) : Prop :=
  σ.live now = τ.live now

theorem Alike.live (h : Alike now σ τ) (e : EncKey) : σ.live now e = τ.live now e :=
  congrFun h e

theorem Alike.trans (h₁ : Alike now σ τ) (h₂ : Alike now τ ρ) : Alike now σ ρ :=
  Eq.trans h₁ h₂

theorem Alike.symm (h : Alike now σ τ) : Alike now τ σ :=
  Eq.symm h

theorem live_filter (h : t₁ ≤ t₂) (σ : Logical) (e : EncKey) :
    σ.live t₂ e = (σ.live t₁ e).filter (!·.expired t₂) := by
  unfold live
  cases σ e
  case none => rfl
  case some v =>
    by_cases h₁ : v.expired t₁
    case pos => simp [Option.filter_some, h₁, Val.expired_mono h₁ h]
    case neg => simp [Option.filter_some, h₁]

-- What has expired stays expired.
theorem Alike.mono (h : Alike t₁ σ τ) (ht : t₁ ≤ t₂) : Alike t₂ σ τ := by
  ext1 e
  rw [live_filter ht, live_filter ht, h]

variable (h : Alike now σ τ)
include h

theorem Alike.update (e : EncKey) (v : Option Val) :
    Alike now (update σ e v) (update τ e v) := by
  ext1 e'
  rw [live_update, live_update, h]

theorem Alike.checkConditions (cs : List (Condition o)) :
    σ.checkConditions now cs = τ.checkConditions now cs := by
  induction cs
  case nil => rfl
  case cons hi => simp only [Logical.checkConditions, h.live, hi]

theorem Alike.putAll (es : List (Entry o)) : Alike now (σ.putAll es) (τ.putAll es) := by
  induction es generalizing σ τ
  case nil => exact h
  case cons hi => exact hi (h.update ..)

theorem Alike.deleteAll (ks : List (Key o)) : Alike now (σ.deleteAll ks) (τ.deleteAll ks) := by
  induction ks generalizing σ τ
  case nil => exact h
  case cons hi => exact hi (h.update ..)

theorem Alike.applyGroup (g : Group o) :
    Except.Rel (Alike now) (σ.applyGroup now g) (τ.applyGroup now g) := by
  have hb : σ.base now g = τ.base now g := by simp only [base, h.live]
  unfold Logical.applyGroup
  rw [hb]
  refine .ite (fun _ => .ok h) fun _ => .bind (.of_eq rfl) fun s _ hs => ?_
  subst hs
  exact .ite (fun _ => .error _) fun _ => .ok (h.update ..)

theorem Alike.applyGroups (gs : List (Group o)) :
    Except.Rel (Alike now) (σ.applyGroups now gs) (τ.applyGroups now gs) := by
  induction gs generalizing σ τ
  case nil => exact .ok h
  case cons g gs hi => exact (h.applyGroup g).bind fun _ _ h => hi h

theorem Alike.findGuard (guards : List (Entry o)) :
    σ.findGuard now guards = τ.findGuard now guards := by
  induction guards
  case nil => rfl
  case cons hi => simp only [Logical.findGuard, h.live, hi]

theorem Alike.collectionGuard (guards : List (Entry o)) :
    σ.collectionGuard now guards = τ.collectionGuard now guards := by
  induction guards
  case nil => rfl
  case cons hi => simp only [Logical.collectionGuard, h.live, hi]

end Alike

end Logical
end GizClaw.KV

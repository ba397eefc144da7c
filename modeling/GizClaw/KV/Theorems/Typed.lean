import GizClaw.KV.Typed
import GizClaw.Lib.Except

-- What a mutation does to a single key, whatever else it touches.

set_option linter.unusedSectionVars false

namespace GizClaw.KV.Typed

variable {κ ν μ : Type} [DecidableEq κ] [DecidableEq ν] [DecidableEq μ]
variable {σ σ' : Store κ ν μ} {m : Mutation κ ν μ} {k : κ} {x : μ} {b : Bool}
variable {g : Group κ μ} {gs : List (Group κ μ)} {es : List (Entry κ ν)}

namespace Store

theorem members_congr (h : σ' k = σ k) : σ'.members b k = σ.members b k := by
  unfold members
  rw [h]

theorem get_eq_ok : σ.get k = .ok v ↔ σ k = some (.record v) := by
  unfold get
  split <;> simp_all

theorem get_eq_notFound : σ.get k = .error .notFound ↔ σ k = none := by
  unfold get
  split <;> simp_all

theorem checkConditions_eq_true (h : σ.checkConditions cs = .ok true) :
    ∀ c ∈ cs, σ c.key = c.expected.map .record := by
  induction cs
  case nil => simp
  case cons hi =>
    unfold checkConditions at h
    split at h
    case h_1 he hk =>
      simp only [List.mem_cons, forall_eq_or_imp]
      exact ⟨by rw [hk, he]; rfl, hi h⟩
    case h_5 he hk =>
      split at h
      case isTrue hv =>
        simp only [List.mem_cons, forall_eq_or_imp]
        exact ⟨by rw [hk, he, hv]; rfl, hi h⟩
      case isFalse => contradiction
    all_goals contradiction

-- A mutation whose conditions hold is not turned down.
theorem applyMutation_ne_none
    (h : ∀ c ∈ m.conditions, σ c.key = c.expected.map .record) : σ.applyMutation m ≠ .ok none := by
  have htrue (cs : List (Condition κ ν)) (hcs : ∀ c ∈ cs, σ c.key = c.expected.map .record) :
      σ.checkConditions cs = .ok true := by
    induction cs
    case nil => rfl
    case cons c cs hi =>
      have ⟨hc, hcs⟩ := List.forall_mem_cons.mp hcs
      cases he : c.expected <;> rw [he] at hc <;> simp [checkConditions, he, hc, hi hcs]
  intro hn
  unfold applyMutation at hn
  rw [htrue m.conditions h] at hn
  have ⟨_, _, hn⟩ := Except.bind_eq_ok.mp hn
  cases hg : ((σ.putAll m.entries).deleteAll m.deleteKeys).applyGroups m.groups <;> rw [hg] at hn
  case error | ok => nomatch hn

theorem putAll_of_notMem (h : ∀ e ∈ es, e.key ≠ k) : σ.putAll es k = σ k := by
  unfold putAll
  induction es generalizing σ
  case nil => rfl
  case cons hi =>
    simp only [List.mem_cons, forall_eq_or_imp] at h
    rw [List.foldl_cons, hi h.right, Function.update_of_ne h.left.symm]

-- The last entry for a key counts.
theorem exists_putAll (h : ∃ e ∈ es, e.key = k) :
    ∃ e ∈ es, e.key = k ∧ σ.putAll es k = some (.record e.value) := by
  induction es generalizing σ
  case nil => nomatch h
  case cons es hi =>
    by_cases hes : ∃ e' ∈ es, e'.key = k
    case pos =>
      obtain ⟨e', he', hk, hput⟩ := hi hes
      exact ⟨e', .tail _ he', hk, hput⟩
    case neg =>
      have hother : ∀ e' ∈ es, e'.key ≠ k := fun e' he' hk => hes ⟨e', he', hk⟩
      obtain ⟨e', he', hk⟩ := h
      rcases List.mem_cons.mp he' with rfl | he'
      case inr => exact absurd hk (hother e' he')
      case inl =>
        refine ⟨e', .head _, hk, ?_⟩
        change (Store.putAll (Function.update σ e'.key _) es) k = _
        rw [putAll_of_notMem hother, hk, Function.update_self]

theorem putAll_of_mem (hnodup : (es.map (·.key)).Nodup) (he : e ∈ es) :
    σ.putAll es e.key = some (.record e.value) := by
  induction es generalizing σ
  case nil => nomatch he
  case cons e' es hi =>
    have ⟨hkey, hnodup⟩ := List.nodup_cons.mp hnodup
    rcases List.mem_cons.mp he with rfl | he
    case inr => exact hi hnodup he
    case inl =>
      have hother : ∀ e' ∈ es, e'.key ≠ e.key :=
          fun e' he' hk => hkey (List.mem_map.mpr ⟨e', he', hk⟩)
      change (Store.putAll (Function.update σ e.key _) es) e.key = _
      rw [putAll_of_notMem hother, Function.update_self]

theorem deleteAll_apply (ks : List κ) : σ.deleteAll ks k = if k ∈ ks then none else σ k := by
  unfold deleteAll
  induction ks generalizing σ
  case nil => simp
  case cons k' ks hi =>
    rw [List.foldl_cons, hi]
    by_cases hk : k = k' <;> simp [hk]

end Store

-- What a group makes of a member that is there or not.
def Group.Effect (g : Group κ μ) (k : κ) (x : μ) (p : Prop) : Prop :=
  if g.key = k then if g.phase.adds then x ∈ g.members ∨ p else x ∉ g.members ∧ p else p

theorem Group.mem_update :
    x ∈ g.update s ↔ if g.phase.adds then x ∈ g.members ∨ x ∈ s else x ∉ g.members ∧ x ∈ s := by
  unfold update
  generalize g.members = ms
  induction ms generalizing s
  case nil => simp
  case cons hi =>
    cases hb : g.phase.adds <;> simp only [hb, Bool.false_eq_true, ↓reduceIte] at hi ⊢ <;>
      simp only [List.foldl_cons, hi, List.mem_cons, Finset.mem_erase, Finset.mem_insert] <;> tauto

namespace Store

theorem applyGroup_of_ne (h : σ.applyGroup g = .ok σ') (hk : g.key ≠ k) : σ' k = σ k := by
  unfold applyGroup at h
  split at h
  case isTrue => cases h; rfl
  case isFalse =>
    have ⟨s, _, h⟩ := Except.bind_eq_ok.mp h
    cases h
    rw [Function.update_of_ne hk.symm]

theorem base_eq_ok (h : σ.base g = .ok s) : σ.members g.phase.ordered g.key = s := by
  unfold base at h
  unfold members
  split at h
  case h_1 hk => rw [hk]; cases h; rfl
  case h_3 => contradiction
  case h_2 hk =>
    rw [hk]
    split at h
    case isFalse => contradiction
    case isTrue ho => cases h; simp [ho]

section

variable (h : σ.applyGroup g = .ok σ') (hb : g.key = k → g.phase.ordered = b)
include h hb

theorem mem_applyGroup : x ∈ σ'.members b k ↔ g.Effect k x (x ∈ σ.members b k) := by
  unfold Group.Effect
  by_cases hk : g.key = k
  case neg => rw [if_neg hk, members_congr (applyGroup_of_ne h hk)]
  case pos =>
    subst hk
    obtain rfl := hb rfl
    unfold applyGroup at h
    split at h
    case isTrue hm => cases h; simp [hm]
    case isFalse =>
      have ⟨s, hs, h⟩ := Except.bind_eq_ok.mp h
      cases h
      rw [base_eq_ok hs, ← Group.mem_update]
      by_cases he : g.update s = ∅ <;> simp [members, he]

-- The key holds nothing but a collection of the given kind.
def OfKind (σ : Store κ ν μ) (b : Bool) (k : κ) : Prop :=
  ∀ v ∈ σ k, ∃ s, v = .members b s

theorem ofKind_applyGroup (hk : σ.OfKind b k) : σ'.OfKind b k := by
  by_cases he : g.key = k
  case neg =>
    intro v hv
    rw [applyGroup_of_ne h he] at hv
    exact hk v hv
  case pos =>
    obtain rfl := hb he
    subst he
    unfold applyGroup at h
    split at h
    case isTrue => cases h; exact hk
    case isFalse =>
      have ⟨s, _, h⟩ := Except.bind_eq_ok.mp h
      cases h
      intro v hv
      rw [Function.update_self] at hv
      have ⟨_, hv⟩ := Option.ite_none_left_eq_some.mp hv
      cases hv
      exact ⟨_, rfl⟩

end

variable (h : σ.applyGroups gs = .ok σ')
include h

theorem ofKind_applyGroups (hb : ∀ g ∈ gs, g.key = k → g.phase.ordered = b)
    (hk : σ.OfKind b k) : σ'.OfKind b k := by
  induction gs generalizing σ
  case nil => cases h; exact hk
  case cons hi =>
    simp only [List.mem_cons, forall_eq_or_imp] at hb
    have ⟨σ₁, h₁, h⟩ := Except.bind_eq_ok.mp h
    exact hi h hb.right (ofKind_applyGroup h₁ hb.left hk)

theorem applyGroups_of_ne (hk : ∀ g ∈ gs, g.key ≠ k) : σ' k = σ k := by
  induction gs generalizing σ
  case nil => cases h; rfl
  case cons hi =>
    simp only [List.mem_cons, forall_eq_or_imp] at hk
    have ⟨σ₁, h₁, h⟩ := Except.bind_eq_ok.mp h
    rw [hi h hk.right, applyGroup_of_ne h₁ hk.left]

theorem mem_applyGroups (hb : ∀ g ∈ gs, g.key = k → g.phase.ordered = b) :
    x ∈ σ'.members b k ↔ gs.foldl (fun p g => g.Effect k x p) (x ∈ σ.members b k) := by
  induction gs generalizing σ
  case nil => cases h; rfl
  case cons hi =>
    simp only [List.mem_cons, forall_eq_or_imp] at hb
    have ⟨σ₁, h₁, h⟩ := Except.bind_eq_ok.mp h
    rw [hi h hb.right, List.foldl_cons, mem_applyGroup h₁ hb.left]

end Store

-- The mutation treats the key as a collection of the given kind, if at all.
structure Mutation.Spares (m : Mutation κ ν μ) (b : Bool) (k : κ) : Prop where
  entries : ∀ e ∈ m.entries, e.key ≠ k
  deletes : k ∉ m.deleteKeys
  groups : ∀ g ∈ m.groups, g.key = k → g.phase.ordered = b

-- The member is named by one of the groups on the key.
def Names (gs : List (SetMembers κ μ)) (k : κ) (x : μ) : Prop :=
  ∃ g ∈ gs, g.key = k ∧ x ∈ g.members

theorem foldl_effect_adds (gs : List (SetMembers κ μ)) (ha : phase.adds = true)
    {p : Prop} : (gs.map (⟨·, phase⟩)).foldl (fun p (g : Group κ μ) => g.Effect k x p) p ↔
      p ∨ Names gs k x := by
  induction gs generalizing p
  case nil => simp [Names]
  case cons hi =>
    rw [List.map_cons, List.foldl_cons, hi]
    simp only [Group.Effect, ha, ↓reduceIte, Names, List.exists_mem_cons_iff]
    split <;> simp_all
    tauto

theorem foldl_effect_removes (gs : List (SetMembers κ μ)) (ha : phase.adds = false)
    {p : Prop} : (gs.map (⟨·, phase⟩)).foldl (fun p (g : Group κ μ) => g.Effect k x p) p ↔
      p ∧ ¬Names gs k x := by
  induction gs generalizing p
  case nil => simp [Names]
  case cons hi =>
    rw [List.map_cons, List.foldl_cons, hi]
    simp only [Group.Effect, ha, Bool.false_eq_true, ↓reduceIte, Names, List.exists_mem_cons_iff]
    split <;> simp_all
    tauto

namespace Store

variable (h : σ.applyMutation m = .ok (some σ'))
include h

-- A mutation that went through.
theorem applyMutation_eq_some : (∀ c ∈ m.conditions, σ c.key = c.expected.map .record) ∧
    ((σ.putAll m.entries).deleteAll m.deleteKeys).applyGroups m.groups = .ok σ' := by
  have ⟨_, _, h⟩ := Except.bind_eq_ok.mp h
  have ⟨ok, hc, h⟩ := Except.bind_eq_ok.mp h
  cases ok
  case false => simp only [Bool.false_eq_true, ↓reduceIte] at h; cases h
  case true =>
    refine ⟨checkConditions_eq_true hc, ?_⟩
    cases hg : ((σ.putAll m.entries).deleteAll m.deleteKeys).applyGroups m.groups <;> rw [hg] at h
    case error => cases h
    case ok => cases h; rfl

-- A record key of the mutation, or one that it does not touch.
theorem lookup_applyMutation (hk : ∀ g ∈ m.groups, g.key ≠ k) :
    σ' k = if k ∈ m.deleteKeys then none else σ.putAll m.entries k := by
  rw [applyGroups_of_ne (applyMutation_eq_some h).right hk, deleteAll_apply]

theorem applyMutation_of_untouched (he : ∀ e ∈ m.entries, e.key ≠ k) (hd : k ∉ m.deleteKeys)
    (hg : ∀ g ∈ m.groups, g.key ≠ k) : σ' k = σ k := by
  rw [lookup_applyMutation h hg, if_neg hd, putAll_of_notMem he]

theorem mem_applyMutation (hs : m.Spares b k) :
    x ∈ σ'.members b k ↔ (((x ∈ σ.members b k ∨ Names m.addMembers k x) ∧
      ¬Names m.removeMembers k x) ∨ Names m.addOrderedMembers k x) ∧
      ¬Names m.removeOrderedMembers k x := by
  have hk : ((σ.putAll m.entries).deleteAll m.deleteKeys) k = σ k := by
    rw [deleteAll_apply, if_neg hs.deletes, putAll_of_notMem hs.entries]
  rw [mem_applyGroups (applyMutation_eq_some h).right hs.groups, Mutation.groups, List.foldl_append,
    List.foldl_append, List.foldl_append, foldl_effect_removes _ rfl, foldl_effect_adds _ rfl,
    foldl_effect_removes _ rfl, foldl_effect_adds _ rfl, members_congr hk]

theorem ofKind_applyMutation (hs : m.Spares b k) (hk : σ.OfKind b k) : σ'.OfKind b k := by
  refine ofKind_applyGroups (applyMutation_eq_some h).right hs.groups fun v hv => hk v ?_
  rwa [deleteAll_apply, if_neg hs.deletes, putAll_of_notMem hs.entries] at hv

end Store

end GizClaw.KV.Typed

import GizClaw.KV.Theorems.Typed
import GizClaw.PendingDeletion.Theorems.Source

-- What the three mutations of the task source do to the rows and to the index.

namespace GizClaw.PendingDeletion

open KV.Typed (Names)
open KV.Typed.Store (applyMutation_eq_some lookup_applyMutation putAll mem_applyMutation)
open KV.Typed.Mutation (groups)

variable {P : Platform} {σ σ' : Store} {k : Key} {x : Text} {id id' : Text}

attribute [local simp] createMutation writeMutation finalizeMutation kvTaskIndexes

section Keys

def InRoot (k : Key) : Prop :=
  k.take root.length = root

inductive IsIndex : Key → Prop
  | due (kind : Kind) (shard : Shard) : IsIndex (kvDueIndexKey kind shard)
  | created (kind : Kind) (status : Status) (shard : Shard) :
    IsIndex (kvCreatedIndexKey kind status shard)

theorem Domain.not_inRoot (h : Domain k) : ¬InRoot k := by
  unfold Domain validateFinalizeDomainKey at h
  split_ifs at h with _ _ hr
  exact hr

theorem IsIndex.inRoot (h : IsIndex k) : InRoot k := by
  cases h <;> rfl

-- The second segment says what a key is for.
theorem IsIndex.tag (h : IsIndex k) :
    k[1]? = some (ascii "due-index") ∨ k[1]? = some (ascii "created-index") := by
  cases h
  case due => exact .inl rfl
  case created => exact .inr rfl

@[simp]
theorem inRoot_byIDKey : InRoot (byIDKey id) :=
  rfl

@[simp]
theorem inRoot_kvTaskKey : InRoot (kvTaskKey id) :=
  rfl

@[simp]
theorem inRoot_byLocatorKey : InRoot (byLocatorKey P kind rid) :=
  rfl

@[simp]
theorem not_isIndex_byIDKey : ¬IsIndex (byIDKey id) := by
  intro h
  rcases h.tag with h | h <;> simp only [byIDKey, root, List.singleton_append,
    List.getElem?_cons_succ, List.getElem?_cons_zero, Option.some.injEq] at h <;>
    exact absurd h (by decide)

@[simp]
theorem not_isIndex_kvTaskKey : ¬IsIndex (kvTaskKey id) := by
  intro h
  rcases h.tag with h | h <;> simp only [kvTaskKey, root, List.singleton_append,
    List.getElem?_cons_succ, List.getElem?_cons_zero, Option.some.injEq] at h <;>
    exact absurd h (by decide)

@[simp]
theorem not_isIndex_byLocatorKey : ¬IsIndex (byLocatorKey P kind rid) := by
  intro h
  rcases h.tag with h | h <;> simp only [byLocatorKey, root, List.singleton_append,
    List.getElem?_cons_succ, List.getElem?_cons_zero, Option.some.injEq] at h <;>
    exact absurd h (by decide)

@[simp]
theorem byIDKey_inj : byIDKey id = byIDKey id' ↔ id = id' := by
  simp [byIDKey]

@[simp]
theorem kvTaskKey_inj : kvTaskKey id = kvTaskKey id' ↔ id = id' := by
  simp [kvTaskKey]

@[simp]
theorem Kind.text_inj {kind kind' : Kind} : kind.text = kind'.text ↔ kind = kind' := by
  cases kind <;> cases kind' <;> decide

@[simp]
theorem byLocatorKey_inj :
    byLocatorKey P kind rid = byLocatorKey P kind' rid' ↔ kind = kind' ∧ rid = rid' := by
  simp [byLocatorKey, P.base64_inj.eq_iff]

@[simp]
theorem byIDKey_ne_kvTaskKey : byIDKey id ≠ kvTaskKey id' := by
  simp only [byIDKey, kvTaskKey, ne_eq, List.append_cancel_left_eq, List.cons.injEq, not_and]
  exact fun h => absurd h (by decide)

@[simp]
theorem byIDKey_ne_byLocatorKey : byIDKey id ≠ byLocatorKey P kind rid := by
  simp [byIDKey, byLocatorKey]

@[simp]
theorem kvTaskKey_ne_byLocatorKey : kvTaskKey id ≠ byLocatorKey P kind rid := by
  simp [kvTaskKey, byLocatorKey]

end Keys

section Indexes

variable {task before after : Task}

-- The task has the member in the index.
def Lists (P : Platform) (task : Option Task) (k : Key) (x : Text) : Prop :=
  Names (kvTaskIndexes P task) k x

theorem kvTaskIndexes_single {task : Option Task} (h : g ∈ kvTaskIndexes P task) :
    IsIndex g.key ∧ ∃ x, g.members = [x] := by
  cases task
  case none => simp at h
  case some =>
    simp only [kvTaskIndexes, List.mem_cons] at h
    rcases h with rfl | h
    case inl => exact ⟨.created .., _, rfl⟩
    case inr =>
      split at h
      case isFalse => simp at h
      case isTrue =>
        simp only [List.mem_singleton] at h
        subst h
        exact ⟨.due .., _, rfl⟩

theorem contains_iff {task : Option Task} (hg : g.members = [x]) :
    contains (kvTaskIndexes P task) g = true ↔ Lists P task g.key x := by
  simp only [contains, List.any_eq_true, decide_eq_true_eq, Lists, Names]
  refine exists_congr fun item => and_congr_right fun hi => and_congr_right fun _ => ?_
  obtain ⟨_, y, hy⟩ := kvTaskIndexes_single hi
  simp [hy, hg, eq_comm]

theorem names_filter {t t' : Option Task} :
    Names ((kvTaskIndexes P t).filter (!contains (kvTaskIndexes P t') ·)) k x ↔
    Lists P t k x ∧ ¬Lists P t' k x := by
  constructor
  case mp =>
    rintro ⟨g, hg, rfl, hx⟩
    have ⟨hg, hc⟩ := List.mem_filter.mp hg
    have ⟨_, y, hy⟩ := kvTaskIndexes_single hg
    obtain rfl : x = y := by simpa [hy] using hx
    rw [Bool.not_eq_true', ← Bool.not_eq_true, contains_iff hy] at hc
    exact ⟨⟨g, hg, rfl, hx⟩, hc⟩
  case mpr =>
    rintro ⟨⟨g, hg, rfl, hx⟩, hn⟩
    have ⟨_, y, hy⟩ := kvTaskIndexes_single hg
    obtain rfl : x = y := by simpa [hy] using hx
    refine ⟨g, List.mem_filter.mpr ⟨hg, ?_⟩, rfl, hx⟩
    rw [Bool.not_eq_true', ← Bool.not_eq_true, contains_iff hy]
    exact hn

@[simp]
theorem names_add : Names (kvTaskIndexChanges P t t').fst k x ↔ Lists P t' k x ∧ ¬Lists P t k x :=
  names_filter

@[simp]
theorem names_remove :
    Names (kvTaskIndexChanges P t t').snd k x ↔ Lists P t k x ∧ ¬Lists P t' k x :=
  names_filter

@[simp]
theorem not_lists_none : ¬Lists P none k x := by
  simp [Lists, Names]

@[simp]
theorem not_names_nil : ¬Names ([] : List Members) k x := by
  simp [Names]

theorem isIndex_of_mem_changes {t t' : Option Task}
    (h : g ∈ (kvTaskIndexChanges P t t').fst ∨ g ∈ (kvTaskIndexChanges P t t').snd) :
    IsIndex g.key := by
  rcases h with h | h <;> exact (kvTaskIndexes_single (List.mem_filter.mp h).left).left

end Indexes

section Create

variable {r : Record} {task : Task}
  (h : σ.applyMutation (createMutation P r task) = .ok (some σ'))
include h

theorem create_conditions :
    σ (byLocatorKey P r.kind r.resourceID) = none ∧ σ (byIDKey r.deletionID) = none ∧
    σ (kvTaskKey r.deletionID) = none := by
  have hc := (applyMutation_eq_some h).left
  simpa using hc

theorem create_lookup (hk : ¬IsIndex k) :
    σ' k = if k = kvTaskKey r.deletionID then some (.record (.state (encodeKVTaskState task)))
      else if k = byLocatorKey P r.kind r.resourceID then some (.record (.locator r.deletionID))
      else if k = byIDKey r.deletionID then some (.record (.record r)) else σ k := by
  rw [lookup_applyMutation h]
  · simp only [createMutation, List.not_mem_nil, ↓reduceIte, putAll,
      List.foldl_cons, List.foldl_nil, Function.update_apply]
  · simp only [groups, createMutation, List.map_nil, List.nil_append,
      List.append_nil, List.mem_map]
    rintro _ ⟨g, hg, rfl⟩ rfl
    exact hk (isIndex_of_mem_changes (.inl hg))

omit h in
theorem create_spares (hk : IsIndex k) : (createMutation P r task).Spares true k where
  entries := by
    simp only [createMutation, List.mem_cons, List.not_mem_nil, or_false, forall_eq_or_imp,
      forall_eq]
    refine ⟨?_, ?_, ?_⟩ <;> rintro rfl <;> simp at hk
  deletes := by simp
  groups := by
    simp only [groups, createMutation, List.map_nil, List.nil_append,
      List.append_nil, List.mem_map]
    rintro _ ⟨g, hg, rfl⟩ _
    rfl

theorem create_members (hk : IsIndex k) :
    x ∈ σ'.members true k ↔ x ∈ σ.members true k ∨ Lists P (some task) k x := by
  rw [mem_applyMutation h (create_spares hk)]
  simp

end Create

section Write

variable {before after : Task} {raw : KVTaskState}
  (h : σ.applyMutation (writeMutation P before after raw) = .ok (some σ'))
include h

theorem write_condition : σ (kvTaskKey after.record.deletionID) = some (.record (.state raw)) := by
  have hc := (applyMutation_eq_some h).left
  simpa using hc

theorem write_lookup (hk : ¬IsIndex k) :
    σ' k = if k = kvTaskKey after.record.deletionID then
      some (.record (.state (encodeKVTaskState after))) else σ k := by
  rw [lookup_applyMutation h]
  · simp only [writeMutation, List.not_mem_nil, ↓reduceIte, putAll,
      List.foldl_cons, List.foldl_nil, Function.update_apply]
  · simp only [groups, writeMutation, List.map_nil, List.nil_append,
      List.mem_append, List.mem_map]
    rintro _ (⟨g, hg, rfl⟩ | ⟨g, hg, rfl⟩) rfl
    case inl => exact hk (isIndex_of_mem_changes (.inl hg))
    case inr => exact hk (isIndex_of_mem_changes (.inr hg))

omit h in
theorem write_spares (hk : IsIndex k) : (writeMutation P before after raw).Spares true k where
  entries := by
    simp only [writeMutation, List.mem_singleton, forall_eq]
    rintro rfl
    simp at hk
  deletes := by simp
  groups := by
    simp only [groups, writeMutation, List.map_nil, List.nil_append,
      List.mem_append, List.mem_map]
    rintro _ (⟨g, hg, rfl⟩ | ⟨g, hg, rfl⟩) _ <;> rfl

theorem write_members (hk : IsIndex k) :
    x ∈ σ'.members true k ↔
    (x ∈ σ.members true k ∨ (Lists P (some after) k x ∧ ¬Lists P (some before) k x)) ∧
    ¬(Lists P (some before) k x ∧ ¬Lists P (some after) k x) := by
  rw [mem_applyMutation h (write_spares hk)]
  simp

end Write

section Finalize

variable {task : Task} {raw : KVTaskState} {conditions : List Condition} {entries : List Entry}
  {keys deleteKeys common : List Key} {removeMembers : List Members}
  (h : σ.applyMutation (finalizeMutation P task raw id conditions entries deleteKeys
    removeMembers) = .ok (some σ'))
include h

theorem finalize_condition : σ (kvTaskKey id) = some (.record (.state raw)) := by
  have hc := (applyMutation_eq_some h).left
  exact hc ⟨kvTaskKey id, some (.state raw)⟩ (by simp)

variable (hc : ∀ k, k ∈ deleteKeys ↔ k ∈ keys ∨ k ∈ common) (hkeys : ∀ k ∈ keys, Domain k)
  (hentries : ∀ e ∈ entries, Domain e.key) (hmembers : ∀ g ∈ removeMembers, Domain g.key)
include hc hkeys hentries hmembers

theorem finalize_lookup (hr : InRoot k) (hk : ¬IsIndex k) :
    σ' k = if k ∈ common then none else σ k := by
  rw [lookup_applyMutation h]
  · have hd : k ∈ deleteKeys ↔ k ∈ common := by
      rw [hc, or_iff_right]
      exact fun hm => (hkeys k hm).not_inRoot hr
    have he : ∀ e ∈ entries, e.key ≠ k := fun e he hek =>
      (hentries e he).not_inRoot (hek ▸ hr)
    simp only [finalizeMutation, hd, KV.Typed.Store.putAll_of_notMem he]
  · simp only [groups, finalizeMutation, List.map_nil, List.nil_append,
      List.append_nil, List.mem_append, List.mem_map]
    rintro _ (⟨g, hg, rfl⟩ | ⟨g, hg, rfl⟩) rfl
    case inl => exact (hmembers g hg).not_inRoot hr
    case inr => exact hk (isIndex_of_mem_changes (.inr hg))

omit h in
theorem finalize_spares (hcommon : ∀ k ∈ common, ¬IsIndex k) (hk : IsIndex k) :
    (finalizeMutation P task raw id conditions entries deleteKeys removeMembers).Spares true k where
  entries := by
    rintro e he rfl
    exact (hentries e he).not_inRoot hk.inRoot
  deletes := by
    simp only [finalizeMutation, hc, not_or]
    exact ⟨fun hk' => (hkeys k hk').not_inRoot hk.inRoot, fun hk' => hcommon k hk' hk⟩
  groups := by
    simp only [groups, finalizeMutation, List.map_nil, List.nil_append,
      List.append_nil, List.mem_append, List.mem_map]
    rintro _ (⟨g, hg, rfl⟩ | ⟨g, hg, rfl⟩) hg'
    case inl => exact absurd (hg' ▸ hk.inRoot) (hmembers g hg).not_inRoot
    case inr => rfl

theorem finalize_members (hcommon : ∀ k ∈ common, ¬IsIndex k) (hk : IsIndex k) :
    x ∈ σ'.members true k ↔ x ∈ σ.members true k ∧ ¬Lists P (some task) k x := by
  have hm : ¬Names removeMembers k x := by
    rintro ⟨g, hg, rfl, _⟩
    exact (hmembers g hg).not_inRoot hk.inRoot
  rw [mem_applyMutation h (finalize_spares hc hkeys hentries hmembers hcommon hk)]
  simp [hm]

end Finalize

end GizClaw.PendingDeletion

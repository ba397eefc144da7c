import GizClaw.KV.Memory
import GizClaw.KV.Theorems.Basic

-- The in-memory store refines the logical one. It stages all effects of a mutation under the
-- touched keys, while the logical store applies them one after the other. The two meet in
-- `Staging.commit`: committing after each step of the staging is the corresponding logical step.

namespace GizClaw.KV

open Function (update update_of_ne)

variable {o : Option Options} {now : Time}

namespace MemoryEntry

def toVal (entry : MemoryEntry) : Val :=
  match entry.members with
  | none => .record entry.value entry.expiresAt
  | some s => .members entry.ordered s

-- A collection has neither a deadline nor a value.
def WF (entry : MemoryEntry) : Prop :=
  ∀ s ∈ entry.members, entry = .collection entry.ordered s

theorem expired_toVal {entry : MemoryEntry} (h : entry.WF) :
    entry.toVal.expired now = entry.expired now := by
  cases hm : entry.members
  case none =>
    simp only [toVal, hm, Val.expired, expired]
    cases entry.expiresAt <;> rfl
  case some s =>
    rw [h s hm]
    rfl

end MemoryEntry

namespace Memory

variable {data : Memory}

def WF (data : Memory) : Prop :=
  ∀ e, ∀ entry ∈ data e, entry.WF

@[local simp]
def logical (data : Memory) : Logical :=
  fun e => (data e).map MemoryEntry.toVal

theorem empty_wf : empty.WF :=
  fun _ _ h => nomatch h

theorem WF.update (h : data.WF) (he : ∀ x ∈ entry, x.WF) : WF (update data e entry) := by
  intro e' x hx
  by_cases heq : e' = e
  case pos => subst heq; exact he x (by simpa using hx)
  case neg => exact h e' x (by rwa [update_of_ne heq] at hx)

theorem logical_update (data : Memory) (e : EncKey) (entry : Option MemoryEntry) :
    logical (update data e entry) =
    update data.logical e (entry.map MemoryEntry.toVal) := by
  ext1 e'
  by_cases h : e' = e
  case pos => subst h; simp
  case neg => simp [update_of_ne h]

theorem live_logical (h : data.WF) (e : EncKey) :
    data.logical.live now e = (data.live now e).map MemoryEntry.toVal := by
  simp only [Logical.live, logical, live]
  cases he : data e
  case none => rfl
  case some entry =>
    rw [Option.map_some, Option.filter_some, Option.filter_some,
      MemoryEntry.expired_toVal (h e entry he)]
    split <;> rfl

section Reads

variable (h : data.WF) (key : Key o)
include h key

theorem get_eq : (data.get now key).fst = data.logical.get now key.encode := by
  simp only [get, Logical.get, live_logical h, live]
  cases data key.encode
  case none => rfl
  case some entry =>
    cases hx : entry.expired now <;> obtain ⟨_ | s, _, _, _⟩ := entry <;>
      simp [hx, MemoryEntry.toVal, Option.filter_some]

theorem hasMember_eq (m : Bytes) :
    data.hasMember now key m = data.logical.hasMember now key.encode m := by
  simp only [hasMember, Logical.hasMember, live_logical h]
  cases data.live now key.encode
  case none => rfl
  case some entry =>
    obtain ⟨members, ordered, _, _⟩ := entry
    cases members <;> cases ordered <;> rfl

theorem listMembers_eq : data.listMembers now key = data.logical.listMembers now key.encode := by
  simp only [listMembers, Logical.listMembers, live_logical h]
  cases data.live now key.encode
  case none => rfl
  case some entry =>
    obtain ⟨members, ordered, _, _⟩ := entry
    cases members <;> cases ordered <;> rfl

theorem rangeOrderedMembers_eq (q : OrderedRange) :
    data.rangeOrderedMembers now key q = data.logical.rangeOrderedMembers now key.encode q := by
  simp only [rangeOrderedMembers, Logical.rangeOrderedMembers, live_logical h]
  cases data.live now key.encode
  case none => rfl
  case some entry =>
    obtain ⟨members, ordered, _, _⟩ := entry
    cases members <;> cases ordered <;> try rfl
    case some.true =>
      have ht (l : List Bytes) (n : Nat) : l.take (min l.length n) = l.take n := by
        simp [List.take_eq_take_iff, Nat.min_comm]
      simp [MemoryEntry.toVal, ← ht _ q.limit.toNat]

end Reads

theorem checkConditions_eq (h : data.WF) (cs : List (Condition o)) :
    data.checkConditions now cs = data.logical.checkConditions now cs := by
  induction cs
  case nil => rfl
  case cons c cs hi =>
    simp only [checkConditions, Logical.checkConditions, live_logical h, hi]
    cases c.expected <;> cases data.live now c.key.encode <;> try rfl
    case some.some x entry =>
      obtain ⟨members, _, value, _⟩ := entry
      cases members <;> by_cases hv : value = x <;> simp [MemoryEntry.toVal, hv]

theorem delete_logical (data : Memory) (ks : List (Key o)) :
    (ks.foldl delete data).logical = data.logical.deleteAll ks := by
  induction ks generalizing data
  case nil => rfl
  case cons hi =>
    rw [List.foldl_cons, hi, delete, logical_update]
    rfl

theorem WF.delete (h : data.WF) (ks : List (Key o)) : (ks.foldl delete data).WF := by
  induction ks generalizing data
  case nil => exact h
  case cons hi => exact hi (h.update (by simp))

theorem putAll_logical (data : Memory) (es : List (Entry o)) :
    (data.putAll es).logical = data.logical.putAll es := by
  induction es generalizing data
  case nil => rfl
  case cons hi =>
    unfold putAll at hi ⊢
    rw [List.foldl_cons, hi, logical_update]
    rfl

theorem WF.putAll (h : data.WF) (es : List (Entry o)) : (data.putAll es).WF := by
  induction es generalizing data
  case nil => exact h
  case cons hi => exact hi (h.update (by simp [MemoryEntry.record, MemoryEntry.WF]))

-- The contents of a memory store as the logical store sees them.
def Refines (data : Memory) (σ : Logical) : Prop :=
  data.WF ∧ data.logical = σ

theorem batchMutate_refines (h : data.WF) (es : List (Entry o)) (ks : List (Key o)) :
    Except.Rel (Option.Rel Refines) (data.batchMutate now es ks)
      (data.logical.batchMutate now es ks) := by
  refine .bind (.of_eq rfl) fun _ _ _ => .ok <| .some ⟨(h.putAll es).delete ks, ?_⟩
  rw [delete_logical, putAll_logical]

namespace Staging

variable {st : Staging}

theorem commit_staged (h : st.deletes e = false) (entry : Option MemoryEntry) (hs : entry.isSome) :
    commit data { st with staged := update st.staged e entry } =
    update (st.commit data) e entry := by
  ext1 e'
  by_cases he : e' = e
  case neg => simp [commit, update_of_ne he]
  case pos =>
    cases entry <;> simp_all [commit]

theorem commit_deletes (e : EncKey) :
    commit data { st with deletes := update st.deletes e true } =
    update (st.commit data) e none := by
  ext1 e'
  by_cases he : e' = e
  case pos => subst he; simp [commit]
  case neg => simp [commit, update_of_ne he]

theorem entries_eq {es : List (Entry o)} (data : Memory) (st : Staging)
    (h : ∀ e ∈ es, ∀ d ∈ e.deadline, now < d) (hd : ∀ e, st.deletes e = false) :
    ∃ st', entries now st es = .ok st' ∧ st'.deletes = st.deletes ∧
      st'.commit data = putAll (st.commit data) es ∧
      ∀ e, (∀ x ∈ es, x.key.encode ≠ e) → st'.staged e = st.staged e := by
  induction es generalizing st
  case nil => exact ⟨st, rfl, rfl, rfl, fun _ _ => rfl⟩
  case cons e es hi =>
    simp only [List.mem_cons, forall_eq_or_imp] at h
    have hv : e.deadline.any (· ≤ now) = false := by
      cases hd : e.deadline
      case none => rfl
      case some d => simpa using h.left d hd
    simp only [entries, hv, Bool.false_eq_true, ↓reduceIte]
    have ⟨st', h₁, h₂, h₃, h₄⟩ := hi { st with
      staged := update st.staged e.key.encode (some (.record e.value e.deadline)) } h.right
        hd
    refine ⟨st', h₁, h₂, ?commit, ?frame⟩
    case commit =>
      rw [h₃, commit_staged (hd _) _ rfl]
      rfl
    case frame =>
      intro e' hne
      simp only [List.mem_cons, forall_eq_or_imp] at hne
      exact (h₄ e' hne.right).trans (update_of_ne hne.left.symm ..)

theorem deleteKeys_eq (data : Memory) (st : Staging) (ks : List (Key o)) :
    (st.deleteKeys ks).commit data = ks.foldl Memory.delete (st.commit data) ∧
    (st.deleteKeys ks).staged = st.staged ∧
    ∀ e, (∀ k ∈ ks, k.encode ≠ e) → (st.deleteKeys ks).deletes e = st.deletes e := by
  induction ks generalizing st
  case nil => simp [deleteKeys]
  case cons k ks hi =>
    have ⟨h₁, h₂, h₃⟩ := hi { st with deletes := update st.deletes k.encode true }
    refine ⟨?_, h₂, ?_⟩
    · rw [commit_deletes] at h₁
      exact h₁
    · intro e hne
      simp only [List.mem_cons, forall_eq_or_imp] at hne
      exact (h₃ e hne.right).trans (update_of_ne hne.left.symm ..)

-- What the staging of the earlier groups left under the key of a later group: nothing, or a
-- collection of the group's own kind, which is marked for deletion once it is empty.
def Ready (st : Staging) (g : Group o) : Prop :=
  match st.staged g.key.encode with
  | none => st.deletes g.key.encode = false
  | some entry => ∃ s, entry = .collection g.phase.ordered s ∧
      st.deletes g.key.encode = decide (s = ∅)

theorem entryOf_refines {g : Group o} (hw : data.WF) (hr : st.Ready g) :
    Except.Rel (fun entry s => entry = .collection g.phase.ordered s)
      (entryOf data now st g) ((st.commit data).logical.base now g) := by
  unfold Ready at hr
  unfold entryOf Logical.base
  cases hs : st.staged g.key.encode <;> simp only [hs] at hr ⊢
  case some =>
    obtain ⟨s, rfl, hd⟩ := hr
    by_cases he : s = ∅
    · have hl : (st.commit data).logical.live now g.key.encode = none := by
        simp [Logical.live, commit, hd, he]
      rw [hl]
      exact .ok (he ▸ rfl)
    · have hl : (st.commit data).logical.live now g.key.encode =
          some (.members g.phase.ordered s) := by
        simp [Logical.live, commit, hd, he, hs, MemoryEntry.toVal, MemoryEntry.collection,
          Val.expired]
      simp only [hl, ↓reduceIte]
      exact .ok rfl
  case none =>
    have hl : (st.commit data).logical.live now g.key.encode =
        (data.live now g.key.encode).map MemoryEntry.toVal := by
      rw [← live_logical hw]
      simp [Logical.live, commit, hr, hs]
    rw [hl]
    cases he : data.live now g.key.encode
    case none => exact .ok rfl
    case some entry =>
      have hx := hw g.key.encode entry (Option.filter_eq_some_iff.mp he).left
      cases hm : entry.members <;> simp only [MemoryEntry.toVal, hm, Option.map_some]
      case none => exact .error _
      case some s =>
        by_cases ho : entry.ordered = g.phase.ordered <;> simp [ho]
        case pos => exact .ok (ho ▸ hx s hm)
        case neg => exact .error _

-- One group: the commit of the staged result is the logical result.
theorem group_refines {g : Group o} (hw : (st.commit data).WF) (hd : data.WF) (hr : st.Ready g) :
    Except.Rel (fun st' σ => Refines (st'.commit data) σ ∧
        ∀ g' : Group o, (g.key.encode = g'.key.encode → g.phase.ordered = g'.phase.ordered) →
          st.Ready g' → st'.Ready g')
      (group data now st g) ((st.commit data).logical.applyGroup now g) := by
  refine .ite (fun _ => .ok ⟨⟨hw, rfl⟩, fun _ _ h => h⟩) fun _ => ?_
  refine (entryOf_refines hd hr).bind fun entry s he => ?_
  subst he
  refine .ite (fun _ => .error _) fun _ => .ok ⟨⟨?wf, ?commit⟩, ?ready⟩
  all_goals
    have hc : commit data
        ⟨update st.staged g.key.encode (some (.collection g.phase.ordered (g.update s))),
         update st.deletes g.key.encode (decide (g.update s = ∅))⟩ =
        update (st.commit data) g.key.encode
          (if g.update s = ∅ then none else some (.collection g.phase.ordered (g.update s))) := by
      ext1 e
      by_cases he : e = g.key.encode
      case pos => subst he; by_cases hs : g.update s = ∅ <;> simp [commit, hs]
      case neg => simp [commit, update_of_ne he]
  case wf =>
    refine hc ▸ hw.update fun x h => ?_
    split at h
    · simp at h
    · cases h
      exact fun _ h => by cases h; rfl
  case commit =>
    refine (congrArg logical hc).trans ?_
    rw [logical_update, Logical.store]
    congr 1
    split <;> rfl
  case ready =>
    intro g' hk h
    unfold Ready at h ⊢
    by_cases he : g'.key.encode = g.key.encode
    case neg => simpa only [update_of_ne he] using h
    case pos =>
      simp only [he, Function.update_self]
      exact ⟨g.update s, by rw [hk he.symm]; rfl, rfl⟩

theorem groups_refines {gs : List (Group o)} (hw : (st.commit data).WF) (hd : data.WF)
    (hr : ∀ g ∈ gs, st.Ready g)
    (hk : gs.Pairwise fun g₁ g₂ =>
      g₁.key.encode = g₂.key.encode → g₁.phase.ordered = g₂.phase.ordered) :
    Except.Rel (fun st' σ => Refines (st'.commit data) σ)
      (groups data now st gs) ((st.commit data).logical.applyGroups now gs) := by
  induction gs generalizing st
  case nil => exact .ok ⟨hw, rfl⟩
  case cons g gs hi =>
    have ⟨hg, hk⟩ := List.pairwise_cons.mp hk
    refine (group_refines hw hd (hr g (by simp))).bind fun st' σ ⟨⟨hw', hσ⟩, hr'⟩ => ?_
    rw [← hσ]
    refine hi hw' (fun g' hm => ?_) hk
    exact hr' g' (hg g' hm) (hr g' (by simp [hm]))

end Staging

theorem applyMutation_refines (h : data.WF) (m : Mutation o) :
    Except.Rel (Option.Rel Refines) (data.applyMutation now m)
      (data.logical.applyMutation now m) := by
  unfold applyMutation Logical.applyMutation
  cases hv : m.validate now
  case error e => exact .error e
  case ok =>
    refine .bind (.of_eq rfl) fun _ _ _ => ?_
    rw [checkConditions_eq h]
    refine .bind (.of_eq rfl) fun b _ hb => ?_
    subst hb
    cases b
    case false => exact .ok .none
    case true =>
      have v := Mutation.validate_valid hv
      have ⟨st, h₁, h₂, h₃, h₄⟩ :=
        Staging.entries_eq data .empty v.deadlines (fun _ => rfl)
      have ⟨h₅, h₆, h₇⟩ := Staging.deleteKeys_eq data st m.deleteKeys
      have he : Staging.empty.commit data = data := by ext1; simp [Staging.commit, Staging.empty]
      rw [h₃, he] at h₅
      have hσ : ((st.deleteKeys m.deleteKeys).commit data).logical =
          (data.logical.putAll m.entries).deleteAll m.deleteKeys := by
        rw [h₅, delete_logical, putAll_logical]
      simp only [h₁, ↓reduceIte]
      rw [← hσ]
      refine .map (Staging.groups_refines (h₅ ▸ (h.putAll _).delete _) h ?ready v.kinds)
        fun _ _ h => .some h
      case ready =>
        -- Collection keys are not record keys, so nothing is staged under them yet.
        intro g hg
        have hf := v.fresh g hg
        simp only [Mutation.records, List.mem_append, List.mem_map, not_or, not_exists,
          not_and] at hf
        unfold Staging.Ready
        rw [h₆, h₄ _ hf.left.right, h₇ _ hf.right, h₂]
        rfl

theorem call_refines (h : data.WF) (c : Call o) : (data.call c).fst = (data.logical.call c).fst ∧
    Refines (data.call c).snd (data.logical.call c).snd := by
  refine settle_rel (R := Refines) ⟨h, rfl⟩ ?_
  cases c.write
  case set =>
    refine .ok (.some ⟨h.update (by simp [MemoryEntry.record, MemoryEntry.WF]), ?_⟩)
    exact logical_update ..
  case delete => exact .ok (.some ⟨h.update (by simp), logical_update ..⟩)
  case batchMutate entries keys => exact batchMutate_refines h entries keys
  case applyMutation m => exact applyMutation_refines h m

theorem findGuard_eq (h : data.WF) (guards : List (Entry o)) :
    data.findGuard now guards = data.logical.findGuard now guards := by
  induction guards
  case nil => rfl
  case cons g gs hi =>
    simp only [findGuard, Logical.findGuard, live_logical h, hi]
    cases hl : data.live now g.key.encode
    case none => rfl
    case some entry =>
      have hx := h g.key.encode entry (Option.filter_eq_some_iff.mp hl).left
      cases hm : entry.members <;> simp only [MemoryEntry.toVal, hm, Option.map_some]
      case some s => rw [hx s hm]; rfl

theorem createIfAllAbsent_refines (h : data.WF) (guards entries : List (Entry o)) :
    Except.Rel (Sum.LiftRel Eq Refines) (data.createIfAllAbsent now guards entries)
      (data.logical.createIfAllAbsent now guards entries) := by
  unfold createIfAllAbsent Logical.createIfAllAbsent
  rw [findGuard_eq h]
  refine .ite (fun _ => .error _) fun _ => ?_
  cases data.logical.findGuard now guards
  case some => exact .ok (.inl rfl)
  case none =>
    exact .bind (.of_eq rfl) fun _ _ _ =>
      .ok (.inr ⟨h.putAll _, putAll_logical data (entries ++ guards)⟩)

theorem request_refines (h : data.WF) (now : Time) (r : Request o) :
    (data.request now r).fst = (data.logical.request now r).fst ∧
    Refines (data.request now r).snd (data.logical.request now r).snd := by
  cases r
  case write w =>
    have ⟨hr, hs⟩ := call_refines h ⟨now, w⟩
    exact ⟨congrArg (Reply.applied <$> ·) hr, hs⟩
  case createIfAllAbsent guards entries =>
    exact settleCreate_rel (R := Refines) ⟨h, rfl⟩ (createIfAllAbsent_refines h guards entries)

end Memory
end GizClaw.KV

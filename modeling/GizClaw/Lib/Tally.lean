import Mathlib

-- What the entries of a list add up to, key by key.

variable {α β κ ι : Type*} [DecidableEq κ] [DecidableEq ι]

def tally (key : α → κ) (value : α → Nat) (l : List α) (k : κ) : Nat :=
  ((l.filter (key · = k)).map value).sum

namespace Tally

variable {key : α → κ} {value : α → Nat} {key' : β → κ} {value' : β → Nat}

@[simp]
theorem tally_nil (k : κ) : tally key value [] k = 0 :=
  rfl

@[simp]
theorem tally_cons (a : α) (l : List α) (k : κ) :
    tally key value (a :: l) k = (if key a = k then value a else 0) + tally key value l k := by
  by_cases h : key a = k <;> simp [tally, h]

@[simp]
theorem tally_append (l l' : List α) (k : κ) :
    tally key value (l ++ l') k = tally key value l k + tally key value l' k := by
  simp [tally]

theorem tally_le_of_sublist (h : l.Sublist l') (k : κ) :
    tally key value l k ≤ tally key value l' k :=
  ((h.filter _).map value).sum_le_sum (fun _ _ => Nat.zero_le _)

theorem tally_eq_zero (h : ∀ a ∈ l, key a ≠ k) : tally key value l k = 0 := by
  induction l
  case nil => rfl
  case cons hi =>
    simp only [List.mem_cons, forall_eq_or_imp] at h
    simp [h.left, hi h.right]

-- A coarser key adds up what finer keys say.
theorem tally_comp (f : κ → ι) (hs : ∀ a ∈ l, key a ∈ s) (i : ι) :
    tally (f ∘ key) value l i = ∑ k ∈ s with f k = i, tally key value l k := by
  induction l
  case nil => simp
  case cons hi =>
    simp only [List.mem_cons, forall_eq_or_imp] at hs
    simp only [tally_cons, Finset.sum_add_distrib, hi hs.right, Function.comp_apply]
    congr 1
    simp [hs.left]

-- What is at most as much for every finer key is so for the coarser one.
theorem tally_comp_le (f : κ → ι)
    (h : ∀ k, f k = i → tally key value l k ≤ tally key' value' l' k) :
    tally (f ∘ key) value l i ≤ tally (f ∘ key') value' l' i := by
  have hl : ∀ a ∈ l, key a ∈ (l.map key).toFinset ∪ (l'.map key').toFinset := by
    intro a ha
    simp only [Finset.mem_union, List.mem_toFinset, List.mem_map]
    exact .inl ⟨a, ha, rfl⟩
  have hl' : ∀ a ∈ l', key' a ∈ (l.map key).toFinset ∪ (l'.map key').toFinset := by
    intro a ha
    simp only [Finset.mem_union, List.mem_toFinset, List.mem_map]
    exact .inr ⟨a, ha, rfl⟩
  rw [tally_comp f hl, tally_comp f hl']
  refine Finset.sum_le_sum fun k hk => ?_
  exact h k (Finset.mem_filter.mp hk).right

section Table

-- A table with at most one row for each key, where a row only ever grows.
def raise (rows : List (κ × Nat)) (k : κ) (n : Nat) : List (κ × Nat) :=
  if k ∈ rows.map Prod.fst then
    rows.map fun row => if row.fst = k ∧ row.snd < n then (k, n) else row
  else
    rows ++ [(k, n)]

variable {rows : List (κ × Nat)} {k : κ} {n : Nat}

theorem map_fst_raise : (raise rows k n).map Prod.fst =
    if k ∈ rows.map Prod.fst then rows.map Prod.fst else rows.map Prod.fst ++ [k] := by
  unfold raise
  split
  case isFalse => simp
  case isTrue =>
    rw [List.map_map]
    refine List.map_congr_left fun row _ => ?_
    by_cases h : row.fst = k ∧ row.snd < n <;> simp [h]

variable (h : (rows.map Prod.fst).Nodup)
include h

theorem nodup_raise : ((raise rows k n).map Prod.fst).Nodup := by
  rw [map_fst_raise]
  split
  case isTrue => exact h
  case isFalse hk =>
    refine List.nodup_append.mpr ⟨h, by simp, fun a ha b hb he => hk ?_⟩
    rwa [← List.mem_singleton.mp hb, ← he]

theorem tally_raise_of_mem (hk : k ∈ rows.map Prod.fst) (i : κ) :
    tally Prod.fst Prod.snd
      (rows.map fun row => if row.fst = k ∧ row.snd < n then (k, n) else row) i =
    if i = k then max (tally Prod.fst Prod.snd rows k) n else tally Prod.fst Prod.snd rows i := by
  induction rows
  case nil => simp at hk
  case cons row rows hi =>
    have ⟨hr, hd⟩ := List.nodup_cons.mp h
    by_cases he : row.fst = k
    case pos =>
      -- The key has no other row, so the rest is as it was.
      subst he
      have hrest : ∀ r ∈ rows, r.fst ≠ row.fst := fun r hm he => hr (List.mem_map.mpr ⟨r, hm, he⟩)
      have hmap :
          (rows.map fun r => if r.fst = row.fst ∧ r.snd < n then (row.fst, n) else r) = rows :=
        (List.map_congr_left fun r hm => if_neg fun hc => hrest r hm hc.left).trans (List.map_id _)
      have hz : tally Prod.fst Prod.snd rows row.fst = 0 := tally_eq_zero hrest
      rw [List.map_cons, hmap, tally_cons, tally_cons, tally_cons]
      by_cases hik : i = row.fst
      case pos => by_cases hlt : row.snd < n <;> simp [hlt, hik, hz] <;> omega
      case neg => by_cases hlt : row.snd < n <;> simp [hlt, hik, Ne.symm hik]
    case neg =>
      have hm := (List.mem_cons.mp hk).resolve_left (Ne.symm he)
      have hn : ¬(row.fst = k ∧ row.snd < n) := fun hc => he hc.left
      rw [List.map_cons, if_neg hn, tally_cons, tally_cons, tally_cons, hi hd hm, if_neg he]
      by_cases hik : i = k
      case pos => simp [hik, he]
      case neg => simp [hik]

theorem tally_raise (i : κ) :
    tally Prod.fst Prod.snd (raise rows k n) i =
      if i = k then max (tally Prod.fst Prod.snd rows k) n else tally Prod.fst Prod.snd rows i := by
  unfold raise
  split
  case isTrue hk => exact tally_raise_of_mem h hk i
  case isFalse hk =>
    have hz : tally Prod.fst Prod.snd rows k = 0 :=
      tally_eq_zero fun r hm he => hk (List.mem_map.mpr ⟨r, hm, he⟩)
    by_cases hik : i = k
    case pos => simp [hik, hz]
    case neg => simp [hik, Ne.symm hik]

end Table

section Positions

variable {α : Type} {p : α → Bool} {l : List α} {i : Nat} {x : α} {f : α → α}

-- A change at one position changes a count by what it does there.
theorem countP_modify (h : l[i]? = some x) :
    (l.modify i f).countP p + (if p x then 1 else 0) = l.countP p + (if p (f x) then 1 else 0) := by
  induction l generalizing i
  case nil => simp at h
  case cons hi =>
    cases i
    case zero =>
      cases h
      simp only [List.modify_zero_cons, List.countP_cons]
      omega
    case succ =>
      have hrest := hi h
      simp only [List.modify_succ_cons, List.countP_cons]
      omega

theorem countP_modify_of_eq (h : ∀ x, p (f x) = p x) : (l.modify i f).countP p = l.countP p := by
  cases hx : l[i]?
  case none => rw [List.modify_eq_self (List.getElem?_eq_none_iff.mp hx)]
  case some x =>
    have hcount := countP_modify (p := p) (f := f) hx
    rw [h x] at hcount
    exact Nat.add_right_cancel hcount

end Positions

end Tally

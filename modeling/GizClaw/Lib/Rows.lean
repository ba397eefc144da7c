import Mathlib

-- Tables of rows under ordered keys: point reads and writes, and scans in key order.

abbrev Rows (κ ν : Type*) := Finmap fun _ : κ => ν

namespace Rows

variable {κ ν : Type*}

section Write

variable [DecidableEq κ]

theorem lookup_insert (rows : Rows κ ν) (k : κ) (v : ν) (i : κ) :
    (rows.insert k v).lookup i = if i = k then some v else rows.lookup i := by
  split
  case isTrue h => subst h; exact Finmap.lookup_insert _
  case isFalse h => exact Finmap.lookup_insert_of_ne _ h

theorem lookup_erase (rows : Rows κ ν) (k i : κ) :
    (rows.erase k).lookup i = if i = k then none else rows.lookup i := by
  split
  case isTrue h => subst h; exact Finmap.lookup_erase _ _
  case isFalse h => exact Finmap.lookup_erase_ne h

theorem insert_lookup {rows : Rows κ ν} (h : rows.lookup k = some v) : rows.insert k v = rows := by
  refine Finmap.ext_lookup fun i => ?_
  rw [lookup_insert]
  split
  case isTrue hi => rw [hi, h]
  case isFalse => rfl

def eraseAll (rows : Rows κ ν) (ks : List κ) : Rows κ ν :=
  ks.foldl (fun rows k => rows.erase k) rows

theorem lookup_eraseAll (rows : Rows κ ν) (ks : List κ) (i : κ) :
    (rows.eraseAll ks).lookup i = if i ∈ ks then none else rows.lookup i := by
  induction ks generalizing rows
  case nil => simp [eraseAll]
  case cons k ks hi =>
    have h := hi (rows.erase k)
    simp only [eraseAll, List.foldl_cons] at h ⊢
    rw [h, lookup_erase]
    by_cases h₁ : i ∈ ks <;> by_cases h₂ : i = k <;> simp [h₁, h₂]

end Write

section Scan

variable [LinearOrder κ]

-- The keys of the rows in a range, in ascending order.
def scan (rows : Rows κ ν) (p : κ → Prop) [DecidablePred p] : List κ :=
  (rows.keys.filter p).sort (· ≤ ·)

variable (rows : Rows κ ν) (p : κ → Prop) [DecidablePred p]

@[simp]
theorem mem_scan : k ∈ rows.scan p ↔ k ∈ rows ∧ p k := by
  simp [scan, Finmap.mem_keys]

theorem scan_pairwise : (rows.scan p).Pairwise (· < ·) :=
  Finset.sortedLT_sort _ |>.pairwise

theorem nodup_scan : (rows.scan p).Nodup :=
  Finset.sort_nodup _ _

variable {rows p} in
theorem scan_congr {rows' : Rows κ ν} (h : ∀ k, p k → (k ∈ rows' ↔ k ∈ rows)) :
    rows'.scan p = rows.scan p := by
  unfold scan
  congr 1
  ext k
  simp only [Finset.mem_filter, Finmap.mem_keys]
  exact and_congr_left (h k)

end Scan

section Under

variable {α : Type*} [DecidableEq α] {rows : Rows (List α) ν} {pre : List α}

-- The keys below a given one, without the part that they share with it.
def under (rows : Rows (List α) ν) (pre : List α) : Finset (List α) :=
  (rows.keys.filter (pre <+: ·)).image (·.drop pre.length)

@[simp]
theorem mem_under : m ∈ rows.under pre ↔ pre ++ m ∈ rows := by
  simp only [under, Finset.mem_image, Finset.mem_filter, Finmap.mem_keys]
  constructor
  case mp =>
    rintro ⟨_, ⟨hk, x, rfl⟩, rfl⟩
    rwa [List.drop_left]
  case mpr => exact fun h => ⟨_, ⟨h, m, rfl⟩, List.drop_left⟩

@[simp]
theorem under_empty : (∅ : Rows (List α) ν).under pre = ∅ :=
  Finset.eq_empty_of_forall_notMem fun _ h => Finmap.notMem_empty (mem_under.mp h)

theorem card_under : (rows.under pre).card = (rows.keys.filter (pre <+: ·)).card := by
  refine Finset.card_image_of_injOn fun k₁ h₁ k₂ h₂ h => ?_
  simp only [Finset.coe_filter, Set.mem_ofPred_eq] at h₁ h₂
  obtain ⟨_, x₁, rfl⟩ := h₁
  obtain ⟨_, x₂, rfl⟩ := h₂
  simpa using h

end Under

end Rows

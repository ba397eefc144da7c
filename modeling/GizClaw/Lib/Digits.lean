import Mathlib

-- Positional numbers of a base, the most significant digit first. A list of digits is the same as
-- the number of zeros it starts with and the number it stands for: this is how one list of digits
-- is carried over to another base without loss.

namespace Digits

variable {b : Nat}

-- The digits read so far stand for `acc`, and one more follows.
def push (acc : Nat) (d : Fin b) : Nat :=
  acc * b + d

def value (ds : List (Fin b)) : Nat :=
  ds.foldl push 0

-- The digits of a number without leading zeros, so none for zero.
def minimal (b n : Nat) [NeZero b] : List (Fin b) :=
  (Nat.digits b n).reverse.map (Fin.ofNat b)

def leadingZeros [NeZero b] (ds : List (Fin b)) : Nat :=
  (ds.takeWhile (· = 0)).length

theorem foldl_push (acc : Nat) (ds : List (Fin b)) :
    ds.foldl push acc = acc * b ^ ds.length + value ds := by
  induction ds generalizing acc
  case nil => simp [value]
  case cons hi =>
    rw [value, List.foldl_cons, List.foldl_cons, hi, hi, push, push, List.length_cons,
      Nat.pow_succ]
    ring

theorem value_cons (d : Fin b) (ds : List (Fin b)) :
    value (d :: ds) = d * b ^ ds.length + value ds := by
  rw [value, List.foldl_cons, foldl_push, push, Nat.zero_mul, Nat.zero_add]

theorem value_eq_ofDigits (ds : List (Fin b)) :
    value ds = Nat.ofDigits b (ds.reverse.map Fin.val) := by
  induction ds
  case nil => rfl
  case cons hi =>
    rw [value_cons, hi, List.reverse_cons, List.map_append, Nat.ofDigits_append]
    simp only [List.map_cons, List.map_nil, Nat.ofDigits_singleton, List.length_map,
      List.length_reverse]
    ring

section Base

variable [NeZero b]

theorem value_replicate_append (k : Nat) (ds : List (Fin b)) :
    value (List.replicate k 0 ++ ds) = value ds := by
  induction k
  case zero => rfl
  case succ hi => rw [List.replicate_succ, List.cons_append, value_cons, hi]; simp

theorem leadingZeros_replicate_append (k : Nat) {ds : List (Fin b)} (h : ds.head? ≠ some 0) :
    leadingZeros (List.replicate k 0 ++ ds) = k := by
  have ht : ds.takeWhile (· = 0) = [] := by
    cases ds
    case nil => rfl
    case cons => simpa [List.takeWhile_cons] using h
  simp [leadingZeros, ht]

-- What follows the leading zeros.
theorem eq_replicate_append (ds : List (Fin b)) :
    ∃ ds', ds = List.replicate (leadingZeros ds) 0 ++ ds' ∧ ds'.head? ≠ some 0 := by
  refine ⟨ds.dropWhile (· = 0), ?_, ?_⟩
  case refine_1 =>
    have hz : ds.takeWhile (· = 0) = List.replicate (leadingZeros ds) 0 :=
      List.eq_replicate_iff.mpr ⟨rfl, fun d hd => by simpa using List.mem_takeWhile_imp hd⟩
    rw [← hz, List.takeWhile_append_dropWhile]
  case refine_2 =>
    intro h
    have := List.head?_dropWhile_not (· = (0 : Fin b)) ds
    simp [h] at this

variable (hb : 1 < b)

include hb in
theorem value_minimal (n : Nat) : value (minimal b n) = n := by
  have he : (Nat.digits b n).map (Fin.val ∘ Fin.ofNat b) = Nat.digits b n := by
    conv_rhs => rw [← List.map_id (Nat.digits b n)]
    exact List.map_congr_left fun d hd => Nat.mod_eq_of_lt (Nat.digits_lt_base hb hd)
  rw [value_eq_ofDigits, minimal, ← List.map_reverse, List.reverse_reverse, List.map_map, he,
    Nat.ofDigits_digits]

include hb in
theorem minimal_value (h : ds.head? ≠ some 0) : minimal b (value ds) = ds := by
  have he : ds.map (Fin.ofNat b ∘ Fin.val) = ds := by
    conv_rhs => rw [← List.map_id ds]
    exact List.map_congr_left fun d _ => Fin.ext (Nat.mod_eq_of_lt d.isLt)
  rw [minimal, value_eq_ofDigits, Nat.digits_ofDigits b hb _ ?lt ?last, ← List.map_reverse,
    List.reverse_reverse, List.map_map, he]
  case lt =>
    intro x hx
    have ⟨d, _, he⟩ := List.mem_map.mp hx
    exact he ▸ d.isLt
  case last =>
    intro hne hz
    cases ds
    case nil => simp at hne
    case cons => simp [Fin.val_eq_zero_iff] at hz h; exact h hz

include hb in
theorem head?_minimal (n : Nat) : (minimal b n).head? ≠ some 0 := by
  rw [minimal, List.head?_map, List.head?_reverse]
  intro h
  have ⟨d, hd, he⟩ := Option.map_eq_some_iff.mp h
  have hne : Nat.digits b n ≠ [] := fun hn => by simp [hn] at hd
  have hn : n ≠ 0 := Nat.digits_ne_nil_iff_ne_zero.mp hne
  have hl := Nat.getLast_digit_ne_zero b hn
  rw [List.getLast?_eq_getLast_of_ne_nil hne, Option.some.injEq] at hd
  have hlt : d < b := Nat.digits_lt_base hb (hd ▸ List.getLast_mem hne)
  have hz : d % b = 0 := congrArg Fin.val he
  rw [Nat.mod_eq_of_lt hlt] at hz
  exact hl (hd.trans hz)

include hb in
theorem replicate_append_minimal (ds : List (Fin b)) :
    List.replicate (leadingZeros ds) 0 ++ minimal b (value ds) = ds := by
  have ⟨ds', he, h⟩ := eq_replicate_append ds
  have hv : value ds = value ds' := by
    rw [he, value_replicate_append]
  rw [hv, minimal_value hb h, ← he]

end Base

-- The same zeros and the same number in the base `b'`.
def convert (b' : Nat) [NeZero b] [NeZero b'] (ds : List (Fin b)) : List (Fin b') :=
  List.replicate (leadingZeros ds) 0 ++ minimal b' (value ds)

theorem convert_convert {b' : Nat} [NeZero b] [NeZero b'] (hb : 1 < b) (hb' : 1 < b')
    (ds : List (Fin b)) : convert b (convert b' ds) = ds := by
  rw [convert, convert, value_replicate_append, value_minimal hb',
    leadingZeros_replicate_append _ (head?_minimal hb' _), replicate_append_minimal hb]

end Digits

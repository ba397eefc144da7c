import Mathlib

-- Byte strings under the bytewise (lexicographic) order, and the encodings that key-value layouts
-- are built from: fixed-width big-endian numbers and length-framed strings.

abbrev Byte := Fin 256

instance Byte.neZero : NeZero 256 :=
  ⟨by decide⟩

abbrev Bytes := List Byte

namespace Bytes

instance lawfulBEq : LawfulBEq Bytes :=
  inferInstance

instance isTrans : IsTrans Bytes (· ≤ ·) :=
  inferInstance

instance antisymm : Std.Antisymm (α := Bytes) (· ≤ ·) :=
  inferInstance

instance total : Std.Total (α := Bytes) (· ≤ ·) :=
  inferInstance

-- The `w` byte big-endian representation of `n`, which drops everything beyond the `w` low bytes.
def bigEndian : Nat → Nat → Bytes
  | 0, _ => []
  | w + 1, n => Fin.ofNat 256 (n / 256 ^ w) :: bigEndian w n

@[simp]
theorem length_bigEndian (w n : Nat) : (bigEndian w n).length = w := by
  induction w
  case zero => rfl
  case succ hi => simp [bigEndian, hi]

theorem bigEndian_mod (w n : Nat) : bigEndian w (n % 256 ^ w) = bigEndian w n := by
  suffices h : ∀ k, w ≤ k → bigEndian w (n % 256 ^ k) = bigEndian w n from h w le_rfl
  induction w
  case zero => intros; rfl
  case succ w hi =>
    intro k hk
    have hd : 256 ^ k = 256 ^ w * (256 * 256 ^ (k - w - 1)) := by
      rw [← Nat.pow_succ', ← Nat.pow_add]
      congr 1
      omega
    simp only [bigEndian, hi k (by omega), List.cons.injEq, and_true]
    rw [hd, Nat.mod_mul_right_div_self]
    ext
    simp only [Fin.val_ofNat]
    rw [Nat.mod_mul_right_mod]

theorem bigEndian_injective (ha : a < 256 ^ w) (hb : b < 256 ^ w)
    (h : bigEndian w a = bigEndian w b) : a = b := by
  induction w generalizing a b
  case zero => simp_all
  case succ w hi =>
    simp only [bigEndian, List.cons.injEq] at h
    have ⟨hd, tl⟩ := h
    rw [← bigEndian_mod w a, ← bigEndian_mod w b] at tl
    have hm := hi (Nat.mod_lt _ (by positivity)) (Nat.mod_lt _ (by positivity)) tl
    have hq : a / 256 ^ w = b / 256 ^ w := by
      have ha' : a / 256 ^ w < 256 := Nat.div_lt_of_lt_mul (by rwa [← Nat.pow_succ])
      have hb' : b / 256 ^ w < 256 := Nat.div_lt_of_lt_mul (by rwa [← Nat.pow_succ])
      have := congrArg Fin.val hd
      simpa [Fin.val_ofNat, Nat.mod_eq_of_lt ha', Nat.mod_eq_of_lt hb'] using this
    rw [← Nat.div_add_mod a (256 ^ w), ← Nat.div_add_mod b (256 ^ w), hm, hq]

-- The number that a big-endian representation stands for.
def ofBigEndian : Bytes → Nat
  | [] => 0
  | b :: bs => b * 256 ^ bs.length + ofBigEndian bs

theorem ofBigEndian_bigEndian (w n : Nat) : ofBigEndian (bigEndian w n) = n % 256 ^ w := by
  induction w
  case zero => simp [bigEndian, ofBigEndian, Nat.mod_one]
  case succ hi =>
    rw [bigEndian, ofBigEndian, hi, length_bigEndian, Fin.val_ofNat, Nat.mod_pow_succ,
      Nat.mul_comm, Nat.add_comm]

theorem bigEndian_lt_iff (ha : a < 256 ^ w) (hb : b < 256 ^ w) :
    bigEndian w a < bigEndian w b ↔ a < b := by
  induction w generalizing a b
  case zero => simp_all [bigEndian]
  case succ w hi =>
    have hp : 0 < 256 ^ w := by positivity
    have ha' : a / 256 ^ w < 256 := Nat.div_lt_of_lt_mul (by rwa [← Nat.pow_succ])
    have hb' : b / 256 ^ w < 256 := Nat.div_lt_of_lt_mul (by rwa [← Nat.pow_succ])
    have hm := hi (Nat.mod_lt a hp) (Nat.mod_lt b hp)
    rw [bigEndian_mod, bigEndian_mod] at hm
    have hf (x : Nat) (hx : x < 256) : (Fin.ofNat 256 x).val = x := Nat.mod_eq_of_lt hx
    simp only [bigEndian, List.cons_lt_cons_iff, hm, Fin.lt_def, Fin.ext_iff, hf _ ha', hf _ hb']
    have hda := Nat.div_add_mod a (256 ^ w)
    have hdb := Nat.div_add_mod b (256 ^ w)
    constructor
    case mp =>
      rintro (h | ⟨h, h'⟩)
      case inl => exact Nat.lt_of_div_lt_div h
      case inr => rw [h] at hda; omega
    case mpr =>
      intro h
      rcases (Nat.div_le_div_right h.le : a / 256 ^ w ≤ b / 256 ^ w).lt_or_eq with hlt | heq
      case inl => exact .inl hlt
      case inr => rw [heq] at hda; exact .inr ⟨heq, by omega⟩

-- A string behind its own length. Frames are self-delimiting, so a string that starts with one
-- frame starts with no other.
def frame (b : Bytes) : Bytes :=
  bigEndian 8 b.length ++ b

theorem frame_append_injective (ha : a.length < 2 ^ 64) (hb : b.length < 2 ^ 64)
    (h : frame a ++ x = frame b ++ y) : a = b ∧ x = y := by
  simp only [frame, List.append_assoc] at h
  have ⟨hl, h⟩ := List.append_inj h (by simp)
  have hl := bigEndian_injective (by simpa using ha) (by simpa using hb) hl
  exact List.append_inj h hl

theorem not_append_lt (p x : Bytes) : ¬p ++ x < p := by
  induction p <;> simp_all

theorem lt_of_append_lt {a b x : Bytes} (hl : a.length = b.length) (h : a ++ x < b) : a < b := by
  induction a generalizing b
  case nil =>
    cases b
    case nil => simp at h
    case cons => simp at hl
  case cons hi =>
    cases b
    case nil => simp at hl
    case cons =>
      simp only [List.cons_append, List.cons_lt_cons_iff] at h ⊢
      exact h.imp id fun h => ⟨h.left, hi (by simpa using hl) h.right⟩

theorem append_lt_append_iff (p : Bytes) : p ++ a < p ++ b ↔ a < b := by
  induction p <;> simp_all

-- Strings of which none starts another one are compared first.
theorem append_lt_append_iff_of_free {a b x y : Bytes} (hab : a <+: b → a = b)
    (hba : b <+: a → b = a) : a ++ x < b ++ y ↔ a < b ∨ (a = b ∧ x < y) := by
  induction a generalizing b
  case nil =>
    obtain rfl := hab List.nil_prefix
    simp
  case cons c a hi =>
    cases b
    case nil => simp at hba
    case cons d b =>
      by_cases hcd : c = d
      case neg => simp [List.cons_lt_cons_iff, hcd]
      case pos =>
        subst hcd
        have hab' : a <+: b → a = b := fun h => (List.cons.inj (hab (by simpa using h))).right
        have hba' : b <+: a → b = a := fun h => (List.cons.inj (hba (by simpa using h))).right
        simp [hi hab' hba']

-- The least string above all strings that start with `p`, if there is one.
def prefixEnd : Bytes → Option Bytes
  | [] => none
  | b :: bs =>
    match prefixEnd bs with
    | some e => some (b :: e)
    | none => if b = 255 then none else some [b + 1]

theorem prefixEnd_cons (h : b ≠ 255) (bs : Bytes) : ∃ e, prefixEnd (b :: bs) = some e := by
  unfold prefixEnd
  cases prefixEnd bs
  case none => exact ⟨[b + 1], by simp [h]⟩
  case some e => exact ⟨b :: e, rfl⟩

theorem lt_or_isPrefix_of_prefixEnd (h : prefixEnd p = none) (k : Bytes) : k < p ∨ p <+: k := by
  induction p generalizing k
  case nil => simp
  case cons b bs hi =>
    simp only [prefixEnd] at h
    cases hb : prefixEnd bs <;> simp only [hb] at h
    case some => contradiction
    case none =>
      have hb' : b = 255 := by_contra fun hn => by simp [hn] at h
      cases k
      case nil => simp
      case cons c ks =>
        have hc : c < b ∨ c = b := by
          rw [hb']
          exact (Fin.le_last c).lt_or_eq
        simp only [List.cons_lt_cons_iff, List.cons_prefix_cons]
        rcases hc with hc | rfl
        case inl => exact .inl (.inl hc)
        case inr => exact (hi hb ks).imp (fun h => .inr ⟨rfl, h⟩) fun h => ⟨rfl, h⟩

theorem lt_prefixEnd_iff (h : prefixEnd p = some e) : k < e ↔ k < p ∨ p <+: k := by
  induction p generalizing e k
  case nil => contradiction
  case cons b bs hi =>
    simp only [prefixEnd] at h
    cases hb : prefixEnd bs <;> simp only [hb] at h
    case some =>
      cases h
      cases k
      case nil => simp
      case cons =>
        simp only [List.cons_lt_cons_iff, List.cons_prefix_cons, hi hb]
        tauto
    case none =>
      have ⟨hn, h⟩ := Option.ite_none_left_eq_some.mp h
      cases h
      cases k
      case nil => simp
      case cons c ks =>
        have hk := lt_or_isPrefix_of_prefixEnd hb ks
        have hs : (b + 1).val = b.val + 1 :=
          Fin.val_add_one_of_lt (lt_of_le_of_ne (Fin.le_last b) hn)
        have hc : c < b + 1 ↔ c < b ∨ c = b := by
          rw [Fin.lt_def, Fin.lt_def, Fin.ext_iff, hs]
          exact Nat.lt_succ_iff_lt_or_eq
        simp only [List.cons_lt_cons_iff, List.cons_prefix_cons, List.not_lt_nil, and_false,
          or_false, hc]
        tauto

theorem lt_append_of_lt (h : k < p) (x : Bytes) : k < p ++ x := by
  induction p generalizing k
  case nil => simp at h
  case cons hi =>
    cases k
    case nil => simp
    case cons =>
      simp only [List.cons_append, List.cons_lt_cons_iff] at h ⊢
      exact h.imp_right fun ⟨hc, h⟩ => ⟨hc, hi h⟩

theorem isPrefix_of_lt_append {k p x : Bytes} (h : ¬k < p) (hx : k < p ++ x) : p <+: k := by
  induction p generalizing k
  case nil => simp
  case cons hi =>
    cases k
    case nil => simp at h
    case cons =>
      simp only [List.cons_append, List.cons_lt_cons_iff, not_or, not_and] at h hx
      have ⟨hc, hk⟩ := hx.resolve_left h.left
      exact List.cons_prefix_cons.mpr ⟨hc.symm, hi (h.right hc) hk⟩

-- The least string above `a` is `a` with a zero byte behind it.
theorem not_lt_append_zero {a m : Bytes} : ¬m < a ++ [0] ↔ a < m := by
  induction a generalizing m
  case nil =>
    cases m
    case nil => simp
    case cons => simp [List.cons_lt_cons_iff]
  case cons hi =>
    cases m
    case nil => simp
    case cons =>
      simp only [List.cons_append, List.cons_lt_cons_iff, not_or, not_and, hi]
      constructor
      case mp => 
        intro ⟨h, h'⟩
        rcases (not_lt.mp h).lt_or_eq with hlt | heq
        case inl => exact .inl hlt
        case inr => exact .inr ⟨heq, h' heq.symm⟩
      case mpr =>
        rintro (h | ⟨h, h'⟩)
        case inl => exact ⟨h.asymm, fun he => absurd he.symm h.ne⟩
        case inr => exact ⟨fun hlt => hlt.ne h.symm, fun _ => h'⟩

-- The segments between separators do not contain one.
theorem not_mem_of_mem_splitOn {b s : Bytes} (h : s ∈ b.splitOn sep) : sep ∉ s := by
  unfold List.splitOn at h
  induction b generalizing s
  case nil => simp_all
  case cons x xs hi =>
    rw [List.splitOnP_cons_eq_if_modifyHead] at h
    split at h
    case isTrue =>
      rcases List.mem_cons.mp h with rfl | h
      case inl => exact List.not_mem_nil
      case inr => exact hi h
    case isFalse hx =>
      cases hs : xs.splitOnP (· == sep)
      case nil => simp [hs] at h
      case cons t ts =>
        rw [hs, List.modifyHead_cons] at h
        rcases List.mem_cons.mp h with rfl | h
        case inr => exact hi (by simp [hs, h])
        case inl =>
          have ht : sep ∉ t := hi (by simp [hs])
          have hne : sep ≠ x := fun he => hx (by simp [he])
          simp [hne, ht]

end Bytes

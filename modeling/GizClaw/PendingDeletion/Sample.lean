import GizClaw.PendingDeletion.Task

-- Simple functions in place of Go's libraries, to run the model with.

namespace GizClaw.PendingDeletion

namespace Sample

def high (x : Byte) : Byte :=
  ⟨x.val / 16, by omega⟩

def low (x : Byte) : Byte :=
  ⟨x.val % 16, by omega⟩

-- Two symbols for each byte, none of which is a slash.
def nibbles : Bytes → Text
  | [] => []
  | x :: b => high x :: low x :: nibbles b

def unnibble : Text → Bytes
  | x :: y :: b => Fin.ofNat 256 (16 * x.val + y.val) :: unnibble b
  | _ => []

theorem unnibble_nibbles (b : Bytes) : unnibble (nibbles b) = b := by
  induction b
  case nil => rfl
  case cons hi =>
    rw [nibbles, unnibble, hi, List.cons.injEq]
    refine ⟨Fin.ext ?_, rfl⟩
    simp only [high, low, Fin.val_ofNat]
    omega

theorem length_nibbles (b : Bytes) : (nibbles b).length = 2 * b.length := by
  induction b
  case nil => rfl
  case cons hi =>
    simp only [nibbles, List.length_cons, hi]
    omega

theorem nibbles_lt_iff (h : a.length = b.length) : nibbles a < nibbles b ↔ a < b := by
  induction a generalizing b
  case nil => cases b <;> simp_all [nibbles]
  case cons x a hi =>
    cases b
    case nil => simp at h
    case cons y b =>
      have hxy : high x < high y ∨ (high x = high y ∧ low x < low y) ↔ x < y := by
        simp only [high, low, Fin.lt_def, Fin.ext_iff]
        omega
      have he : high x = high y ∧ low x = low y ↔ x = y := by
        simp only [high, low, Fin.ext_iff]
        omega
      simp only [nibbles, List.cons_lt_cons_iff, hi (Nat.succ.inj h), ← hxy, ← he]
      tauto

theorem slash_notMem_nibbles (b : Bytes) : slash ∉ nibbles b := by
  induction b
  case nil => simp [nibbles]
  case cons hi =>
    have hs : slash.val = 47 := rfl
    simp only [nibbles, List.mem_cons, hi, or_false, not_or, Fin.ext_iff, high, low, hs]
    omega

theorem lt_of_time (t : Time) : t.val < 256 ^ 15 :=
  t.isLt.trans (by decide)

end Sample

open Sample in
def Platform.sample : Platform where
  format t := nibbles (Bytes.bigEndian 15 t.val)
  format_length := by simp [length_nibbles]
  format_lt s t := by
    rw [nibbles_lt_iff (by simp), Bytes.bigEndian_lt_iff (lt_of_time s) (lt_of_time t), Fin.lt_def]
  format_slash _ := slash_notMem_nibbles _
  parse b := some (Fin.ofNat timeLimit (Bytes.ofBigEndian (unnibble b)))
  parse_format t := by
    rw [unnibble_nibbles, Bytes.ofBigEndian_bigEndian, Nat.mod_eq_of_lt (lt_of_time t)]
    exact congrArg some (Fin.ext (Nat.mod_eq_of_lt t.isLt))
  trimSpace := id
  trimSpace_eq := by simp
  runeCount := List.length
  validJSON _ := true
  base64 := id
  base64_inj := Function.injective_id
  newSHA1 _ _ := ascii "00000000-0000-0000-0000-000000000000"
  newSHA1_form := fun _ _ => by decide
  sum256 _ := 0
  fingerprint _ := List.replicate 64 48
  quarantine _ := []
  hex := by simp

def Record.sample : Record where
  deletionID := ascii "00000000-0000-0000-0000-000000000000"
  kind := .workspace
  resourceID := ascii "w1"
  reason := .adminDelete
  deletedAt := 1
  ownerPublicKey := none
  descriptorVersion := 1
  descriptor := ascii "null"

end GizClaw.PendingDeletion

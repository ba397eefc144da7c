import GizClaw.Encoding.Base58
import GizClaw.Lib.Except

-- Bytes and Base58 texts correspond to each other one to one: both are the digits of one number
-- behind the same count of zeros.

namespace GizClaw.Base58

open PendingDeletion (Text ascii)

theorem decodeTable_letter (d : Fin 58) : decodeTable (letter d) = some d := by
  revert d
  decide +kernel

theorem letter_of_decodeTable (h : decodeTable c = some d) : letter d = c := by
  have := List.find?_some h
  simpa using this

theorem letter_injective : Function.Injective letter := by
  intro d d' h
  have := decodeTable_letter d
  rw [h, decodeTable_letter] at this
  exact (Option.some.inj this).symm

theorem encodeToString_eq (data : Bytes) :
    encodeToString data = (Digits.convert 58 data).map letter := by
  unfold encodeToString Digits.convert
  split
  case isTrue h => rw [h]; simp [Digits.leadingZeros, Digits.value, Digits.minimal]
  case isFalse =>
    simp only [Digits.minimal, List.map_append, List.map_replicate, List.map_map,
      ← List.map_reverse]
    rfl

set_option maxRecDepth 4000 in
theorem letter_form (d : Fin 58) : letter d ≠ 47 ∧ 33 ≤ letter d ∧ letter d ≤ 126 := by
  revert d
  decide

theorem mem_encodeToString (h : c ∈ encodeToString data) : c ≠ 47 ∧ 33 ≤ c ∧ c ≤ 126 := by
  rw [encodeToString_eq] at h
  have ⟨d, _, hd⟩ := List.mem_map.mp h
  exact hd ▸ letter_form d

-- The loop reads exactly the texts that are made of letters.
theorem decodeLoop_eq_ok_iff :
    decodeLoop i acc value = .ok n ↔
      ∃ ds : List (Fin 58), value = ds.map letter ∧ ds.foldl Digits.push acc = n := by
  induction value generalizing i acc
  case nil =>
    simp [decodeLoop]
  case cons c cs hi =>
    cases hc : decodeTable c
    case none =>
      simp only [decodeLoop, hc, reduceCtorEq, false_iff]
      rintro ⟨_ | ⟨d, ds⟩, he, -⟩
      case nil => simp at he
      case cons =>
        have hd : c = letter d := (List.cons.inj he).left
        rw [hd, decodeTable_letter] at hc
        contradiction
    case some d =>
      simp only [decodeLoop, hc, hi]
      constructor
      case mp =>
        intro ⟨ds, he, hn⟩
        exact ⟨d :: ds, by rw [he, List.map_cons, letter_of_decodeTable hc], hn⟩
      case mpr =>
        rintro ⟨_ | ⟨d', ds⟩, he, hn⟩
        case nil => simp at he
        case cons =>
          have ⟨hd, he⟩ := List.cons.inj he
          rw [hd, decodeTable_letter, Option.some.injEq] at hc
          exact ⟨ds, he, hc ▸ hn⟩

theorem leadingZeros_map_letter (ds : List (Fin 58)) :
    ((ds.map letter).takeWhile (· = letter 0)).length = Digits.leadingZeros ds := by
  have hp : (fun c => decide (c = letter 0)) ∘ letter = fun d => decide (d = 0) := by
    funext d
    simp [letter_injective.eq_iff]
  rw [List.takeWhile_map, hp, List.length_map, Digits.leadingZeros]

theorem decodeString_eq (value : Text) :
    decodeString value = (decodeLoop 0 0 value).map fun acc =>
      List.replicate (value.takeWhile (· = letter 0)).length 0 ++ Digits.minimal 256 acc := by
  unfold decodeString
  split
  case isTrue h => rw [h]; simp [decodeLoop, Except.map, Digits.minimal]
  case isFalse => rfl

theorem decodeString_eq_ok_iff_digits :
    decodeString value = .ok data ↔
      ∃ ds : List (Fin 58), value = ds.map letter ∧ data = Digits.convert 256 ds := by
  rw [decodeString_eq]
  constructor
  case mp =>
    intro h
    cases hl : decodeLoop 0 0 value
    case error => rw [hl] at h; contradiction
    case ok =>
      have ⟨ds, hv, hn⟩ := decodeLoop_eq_ok_iff.mp hl
      rw [hl, hv, Except.map, leadingZeros_map_letter, ← hn] at h
      exact ⟨ds, hv, (Except.ok.inj h).symm⟩
  case mpr =>
    intro ⟨ds, hv, h⟩
    rw [decodeLoop_eq_ok_iff.mpr ⟨ds, hv, rfl⟩, hv, h, Digits.convert, ← leadingZeros_map_letter]
    rfl

-- What a text decodes to is encoded as this text and as no other.
theorem decodeString_eq_ok_iff : decodeString value = .ok data ↔ encodeToString data = value := by
  rw [decodeString_eq_ok_iff_digits, encodeToString_eq]
  constructor
  case mp =>
    intro ⟨ds, hv, h⟩
    rw [h, hv, Digits.convert_convert (by decide) (by decide)]
  case mpr =>
    intro h
    exact ⟨_, h.symm, (Digits.convert_convert (by decide) (by decide) data).symm⟩

theorem decodeString_bijective (data : Bytes) (value : Text) :
    decodeString (encodeToString data) = .ok data ∧
      (decodeString value = .ok data → encodeToString data = value) ∧
      ∀ value', decodeString value = .ok data → decodeString value' = .ok data → value = value' :=
  ⟨decodeString_eq_ok_iff.mpr rfl, decodeString_eq_ok_iff.mp, fun _ h h' =>
    (decodeString_eq_ok_iff.mp h).symm.trans (decodeString_eq_ok_iff.mp h')⟩

-- Two zero bytes in front of the number 58.
theorem decodeString_bijective_sample :
    decodeString (ascii "1121") = .ok [0, 0, 58] ∧ encodeToString [0, 0, 58] = ascii "1121" ∧
      decodeString (encodeToString [0, 0, 58]) = .ok [0, 0, 58] := by
  have h : decodeString (ascii "1121") = .ok [0, 0, 58] := by decide +kernel
  have ⟨hd, he, _⟩ := decodeString_bijective [0, 0, 58] (ascii "1121")
  exact ⟨h, he h, hd⟩

theorem decodeMultibaseString_eq_ok_iff :
    decodeMultibaseString value = .ok data ↔ encodeMultibaseToString data = value := by
  cases value
  case nil => simp [decodeMultibaseString, encodeMultibaseToString]
  case cons c cs =>
    unfold decodeMultibaseString encodeMultibaseToString
    rw [List.cons.injEq, ← decodeString_eq_ok_iff]
    by_cases h : c = multibasePrefix
    case pos => simp [h]
    case neg => simp [h, Ne.symm h]

end GizClaw.Base58

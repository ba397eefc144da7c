import GizClaw.Encoding.Standard

-- What is encoded is decoded again, and the forms of the texts.

namespace GizClaw.Standard

open PendingDeletion (Text ascii)
open Digits (push minimal)

section Hex

theorem hexValue_hexDigit (d : Fin 16) : hexValue (hexDigit d) = some d := by
  revert d
  decide

theorem hexDecode_hexEncode (src : Bytes) : hexDecode (hexEncode src) = some src := by
  induction src
  case nil => rfl
  case cons b bs hi =>
    have hb : Fin.ofNat 256 ((Fin.ofNat 16 (b.val / 16)).val * 16 + (Fin.ofNat 16 b.val).val) =
        b := by
      ext
      simp only [Fin.val_ofNat]
      omega
    simp only [hexEncode, List.flatMap_cons, List.cons_append, List.nil_append, hexDecode,
      hexValue_hexDigit, Option.bind_eq_bind, Option.bind_some]
    rw [← hexEncode, hi, hb]
    rfl

@[simp]
theorem length_hexEncode (src : Bytes) : (hexEncode src).length = 2 * src.length := by
  induction src
  case nil => rfl
  case cons hi =>
    rw [hexEncode, List.flatMap_cons, List.length_append, ← hexEncode, hi]
    simp
    omega

theorem hexDigit_form (d : Fin 16) :
    hexDigit d < 128 ∧ hexDigit d ≠ 47 ∧ PendingDeletion.toLower (hexDigit d) = hexDigit d := by
  revert d
  decide

theorem mem_hexEncode (h : c ∈ hexEncode src) : ∃ d, c = hexDigit d := by
  have ⟨b, _, hc⟩ := List.mem_flatMap.mp h
  rcases List.mem_pair.mp hc with hc | hc <;> exact ⟨_, hc⟩

-- A digit that is its own lower case is the one that is written for its value.
set_option maxRecDepth 4000 in
theorem hexValue_eq_some (h : hexValue c = some d) :
    c < 128 ∧ (PendingDeletion.toLower c = c → hexDigit d = c) := by
  revert c d
  decide

theorem hexDecode_eq_some (h : hexDecode s = some b) :
    (∀ c ∈ s, c < 128) ∧ (s.map PendingDeletion.toLower = s → hexEncode b = s) := by
  induction s using hexDecode.induct generalizing b
  case case1 =>
    obtain rfl : [] = b := Option.some.inj h
    exact ⟨by simp, fun _ => rfl⟩
  case case2 => contradiction
  case case3 hi =>
    simp only [hexDecode, Option.bind_eq_bind, Option.bind_eq_some_iff] at h
    obtain ⟨x, hx, y, hy, rest, hr, hb⟩ := h
    obtain rfl := Option.some.inj hb
    obtain ⟨hs, he⟩ := hi hr
    obtain ⟨hp, hp'⟩ := hexValue_eq_some hx
    obtain ⟨hq, hq'⟩ := hexValue_eq_some hy
    refine ⟨by simpa [hp, hq] using hs, fun hl => ?_⟩
    simp only [List.map_cons, List.cons.injEq] at hl
    have hx' : Fin.ofNat 16 ((Fin.ofNat 256 (x.val * 16 + y.val)).val / 16) = x := by
      ext
      simp only [Fin.val_ofNat]
      omega
    have hy' : Fin.ofNat 16 (Fin.ofNat 256 (x.val * 16 + y.val)).val = y := by
      ext
      simp only [Fin.val_ofNat]
      omega
    rw [hexEncode, List.flatMap_cons, ← hexEncode, he hl.right.right, hx', hy', hp' hl.left,
      hq' hl.right.left]
    rfl

end Hex

section Base64

theorem decodeMap_urlLetter (d : Fin 64) : decodeMap (urlLetter d) = some d := by
  revert d
  decide +kernel

set_option maxRecDepth 4000 in
theorem urlLetter_form (d : Fin 64) : urlLetter d ≠ 10 ∧ urlLetter d ≠ 13 ∧ urlLetter d ≠ 47 := by
  revert d
  decide

theorem octets_sextets (src : Bytes) : octets (sextets src) = some src := by
  induction src using sextets.induct
  case case1 => rfl
  case case2 a | case3 a b =>
    simp only [sextets, octets, Option.some.injEq, List.cons.injEq, and_true, Fin.ext_iff,
      Fin.val_ofNat]
    omega
  case case4 hi =>
    simp only [sextets, octets, hi, Option.bind_eq_bind, Option.bind_some, Option.pure_def,
      Option.some.injEq, List.cons.injEq, and_true, Fin.ext_iff, Fin.val_ofNat]
    omega

theorem base64Decode_base64Encode (src : Bytes) : base64Decode (base64Encode src) = some src := by
  have hf : (base64Encode src).filter (fun c => c ≠ 10 ∧ c ≠ 13) = base64Encode src := by
    refine List.filter_eq_self.mpr fun c hc => ?_
    have ⟨d, _, hd⟩ := List.mem_map.mp hc
    have hf := urlLetter_form d
    rw [hd] at hf
    simp [hf]
  have hm (ds : List (Fin 64)) : (ds.map urlLetter).mapM decodeMap = some ds := by
    induction ds
    case nil => rfl
    case cons hi =>
      rw [List.map_cons, List.mapM_cons, decodeMap_urlLetter, hi]
      rfl
  rw [base64Decode, hf, base64Encode, hm]
  exact octets_sextets src

@[simp]
theorem length_base64Encode (src : Bytes) :
    (base64Encode src).length = base64EncodedLen src.length := by
  rw [base64Encode, List.length_map, base64EncodedLen]
  induction src using sextets.induct
  case case1 => rfl
  case case2 | case3 => simp [sextets]
  case case4 hi =>
    simp only [sextets, List.length_cons, hi]
    omega

theorem slash_notMem_base64Encode (src : Bytes) : 47 ∉ base64Encode src := by
  intro h
  have ⟨d, _, hd⟩ := List.mem_map.mp h
  exact (urlLetter_form d).right.right hd

end Base64

section Decimal

theorem decimalDigit_form (d : Fin 10) :
    48 ≤ decimalDigit d ∧ decimalDigit d ≤ 57 ∧ (decimalDigit d).val - 48 = d ∧
      (decimalDigit d = 48 → d = 0) := by
  revert d
  decide

theorem parseLoop_map {ds : List (Fin 10)} (h : ds.foldl push n < 2 ^ 64) :
    parseLoop n (ds.map decimalDigit) = some (ds.foldl push n) := by
  induction ds generalizing n
  case nil => rfl
  case cons d ds hi =>
    have ⟨hl, hu, hd, _⟩ := decimalDigit_form d
    have hn : push n d < 2 ^ 64 := by
      rw [List.foldl_cons, Digits.foldl_push] at h
      have hp : 1 ≤ 10 ^ ds.length := Nat.one_le_pow _ _ (by omega)
      have := Nat.le_mul_of_pos_right (push n d) hp
      omega
    rw [push] at hn
    simp only [List.map_cons, parseLoop, hd, cutoff]
    rw [if_neg (by simp [hl, hu]), if_neg (by omega), if_neg (by omega)]
    exact hi h

theorem parseLoop_lt (hn : n < 2 ^ 64) (h : parseLoop n s = some r) : r < 2 ^ 64 := by
  induction s generalizing n
  case nil => exact Option.some.inj h ▸ hn
  case cons hi =>
    obtain ⟨_, h⟩ := Option.ite_none_left_eq_some.mp h
    obtain ⟨_, h⟩ := Option.ite_none_left_eq_some.mp h
    obtain ⟨hl, h⟩ := Option.ite_none_left_eq_some.mp h
    exact hi (not_le.mp hl) h

theorem parseUint_lt (h : parseUint s = some r) : r < 2 ^ 64 := by
  have ⟨_, h⟩ := Option.ite_none_left_eq_some.mp h
  exact parseLoop_lt (by decide) h

theorem formatUint_eq (h : n ≠ 0) : formatUint n = (minimal 10 n).map decimalDigit :=
  if_neg h

theorem minimal_ne_nil (h : n ≠ 0) : minimal 10 n ≠ [] := by
  simpa [minimal, Nat.digits_eq_nil_iff_eq_zero] using h

theorem formatUint_ne_nil (n : Nat) : formatUint n ≠ [] := by
  by_cases h : n = 0
  case pos => simp [formatUint, h]
  case neg => simpa [formatUint_eq h] using minimal_ne_nil h

theorem parseUint_formatUint {n : Nat} (h : n < 2 ^ 64) : parseUint (formatUint n) = some n := by
  rw [parseUint, if_neg (formatUint_ne_nil n)]
  by_cases hn : n = 0
  case pos => subst hn; rfl
  case neg =>
    have hv : (minimal 10 n).foldl push 0 = n := Digits.value_minimal (by decide) n
    rw [formatUint_eq hn, parseLoop_map (hv.symm ▸ h), hv]

theorem length_formatUint (h : n < 2 ^ 64) : (formatUint n).length ≤ 20 := by
  by_cases hn : n = 0
  case pos => subst hn; decide
  case neg =>
    rw [formatUint_eq hn, List.length_map, minimal, List.length_map, List.length_reverse]
    exact (Nat.digits_length_le_iff (by decide) n).mpr (h.trans (by norm_num))

-- No zero stands in front of another digit.
theorem head?_formatUint (h : 1 < (formatUint n).length) : (formatUint n).head? ≠ some 48 := by
  have hn : n ≠ 0 := fun hn => by simp [hn, formatUint] at h
  rw [formatUint_eq hn, List.head?_map]
  intro hd
  have ⟨d, hd, he⟩ := Option.map_eq_some_iff.mp hd
  exact Digits.head?_minimal (by decide) n ((decimalDigit_form d).right.right.right he ▸ hd)

theorem slash_notMem_formatUint (n : Nat) : 47 ∉ formatUint n := by
  intro h
  unfold formatUint at h
  split at h
  case isTrue => contradiction
  case isFalse =>
    have ⟨d, _, hd⟩ := List.mem_map.mp h
    exact absurd (hd ▸ (decimalDigit_form d).left) (by decide)

end Decimal

end GizClaw.Standard

import GizClaw.Encoding.Theorems.Base58
import GizClaw.Encoding.Theorems.Standard
import GizClaw.Tunnel.Label

-- Labels are canonical: what is accepted is exactly what the formatters write.

namespace GizClaw.Tunnel

open PendingDeletion (Text ascii slash)
open Standard

variable {S : Strings}

section Parts

theorem parseSessionID_eq_ok_iff {id : SessionID} :
    parseSessionID S value = .ok id ↔ id ≠ .zero ∧ value = id.string := by
  unfold parseSessionID
  constructor
  case mp =>
    intro h
    have ⟨hv, h⟩ := Except.ite_error_eq_ok.mp h
    simp only [not_or, not_not] at hv
    split at h
    case h_1 => contradiction
    case h_2 hr =>
      have ⟨ha, he⟩ := hexDecode_eq_some hr
      rw [S.toLower_ascii value ha] at hv
      split at h
      case isFalse => contradiction
      case isTrue =>
        dsimp only at h
        split at h
        case isTrue => contradiction
        case isFalse hz =>
          cases h
          exact ⟨hz, (he hv.right).symm⟩
  case mpr =>
    rintro ⟨hz, rfl⟩
    have hl : id.string.map PendingDeletion.toLower = id.string := by
      refine (List.map_congr_left fun c hc => ?_).trans (List.map_id _)
      have ⟨d, hd⟩ := mem_hexEncode hc
      exact hd ▸ (hexDigit_form d).right.right
    have ha : ∀ c ∈ id.string, c < 128 := by
      intro c hc
      have ⟨d, hd⟩ := mem_hexEncode hc
      exact hd ▸ (hexDigit_form d).left
    have hn : id.string.length = 32 := by simp [SessionID.string]
    have hd : hexDecode id.string = some id.toList := hexDecode_hexEncode id.toList
    rw [if_neg (by simp [hn, S.toLower_ascii _ ha, hl]), hd]
    simp [hz]

theorem decodeKeyText_string (k : PublicKey) : decodeKeyText S k.string = .ok k := by
  have hd : Base58.decodeString k.string = .ok k.toList := Base58.decodeString_eq_ok_iff.mpr rfl
  have ht : S.trimSpace k.string = k.string := by
    exact S.trimSpace_eq _ fun b hb => (Base58.mem_encodeToString hb).right
  have hne : k.string ≠ [] := by
    intro h
    rw [h] at hd
    have := congrArg List.length (Except.ok.inj hd)
    simp at this
  simp only [decodeKeyText, ht, if_neg hne, hd]
  simp

theorem parseClient_eq_ok_iff : parseClient S text = .ok k ↔ k ≠ .zero ∧ text = k.string := by
  unfold parseClient
  constructor
  case mp =>
    intro h
    split at h
    case h_1 => contradiction
    case h_2 =>
      have ⟨hk, h⟩ := Except.ite_error_eq_ok.mp h
      cases h
      simp only [not_or, not_not] at hk
      exact ⟨hk.left, hk.right.symm⟩
  case mpr =>
    rintro ⟨hz, rfl⟩
    simp [decodeKeyText_string, hz]

theorem parseCanonicalUint_eq_ok_iff :
    parseCanonicalUint value allowZero = .ok n ↔
      (allowZero ∨ n ≠ 0) ∧ value = formatUint n := by
  unfold parseCanonicalUint
  constructor
  case mp =>
    intro h
    obtain ⟨_, h⟩ := Except.ite_error_eq_ok.mp h
    split at h
    case h_1 => contradiction
    case h_2 parsed hp =>
      obtain ⟨hn, h⟩ := Except.ite_error_eq_ok.mp h
      cases h
      have hlt := parseUint_lt hp
      simp only [not_or, not_not, not_and] at hn
      rw [Fin.val_ofNat, Nat.mod_eq_of_lt hlt]
      refine ⟨?_, hn.right.symm⟩
      cases allowZero
      case true => exact .inl rfl
      case false =>
        refine .inr fun hz => hn.left rfl ?_
        have hz : parsed % 2 ^ 64 = 0 := congrArg Fin.val hz
        exact (Nat.mod_eq_of_lt hlt).symm.trans hz
  case mpr =>
    rintro ⟨hz, rfl⟩
    have hl := length_formatUint n.isLt
    rw [if_neg, parseUint_formatUint n.isLt]
    case hnc =>
      rintro (h | h | ⟨h, hd⟩)
      case inl => exact formatUint_ne_nil _ h
      case inr.inl => omega
      case inr.inr => exact head?_formatUint h hd
    dsimp only
    rw [if_neg]
    case hnc =>
      rintro (⟨ha, hn⟩ | h)
      case inr => exact h rfl
      case inl => 
        rcases hz with hz | hz
        case inl => simp [hz] at ha
        case inr => exact hz (Fin.ext hn)
    exact congrArg Except.ok (Fin.ext (Nat.mod_eq_of_lt n.isLt))

theorem decodeRemoteAddr_eq_ok_iff :
    decodeRemoteAddr value = .ok r ↔ r.length ≤ maxRemoteAddrSize ∧ value = encodeRemoteAddr r := by
  unfold decodeRemoteAddr
  constructor
  case mp =>
    intro h
    split at h
    case isTrue hv => 
      cases h
      exact ⟨Nat.zero_le _, hv⟩
    case isFalse =>
      have ⟨hv, h⟩ := Except.ite_error_eq_ok.mp h
      split at h
      case h_1 => contradiction
      case h_2 =>
        have ⟨hl, h⟩ := Except.ite_error_eq_ok.mp h
        cases h
        simp only [not_or, not_not, not_lt] at hl hv
        have hne : r ≠ [] := fun hn => hv.left (hl.right.symm.trans (by rw [hn]; rfl))
        exact ⟨hl.left, by rw [encodeRemoteAddr, if_neg hne, hl.right]⟩
  case mpr =>
    rintro ⟨hl, rfl⟩
    by_cases hr : r = []
    case pos => simp [encodeRemoteAddr, hr]
    case neg =>
      have hlen : (base64Encode r).length = base64EncodedLen r.length := length_base64Encode r
      have hpos : 0 < r.length := List.length_pos_of_ne_nil hr
      unfold base64EncodedLen at hlen
      have hdash : base64Encode r ≠ ascii "-" := by
        intro h
        rw [h, show (ascii "-").length = 1 from rfl] at hlen
        omega
      have hbound : ¬(base64Encode r = [] ∨
          base64EncodedLen maxRemoteAddrSize < (base64Encode r).length) := by
        rintro (h | h)
        case inl => rw [h, List.length_nil] at hlen; omega
        case inr => unfold base64EncodedLen maxRemoteAddrSize at *; omega
      rw [encodeRemoteAddr, if_neg hr, if_neg hdash, if_neg hbound, base64Decode_base64Encode]
      simp [hl]

theorem slash_notMem_sessionID (id : SessionID) : slash ∉ id.string := by
  intro h
  have ⟨d, hd⟩ := mem_hexEncode h
  exact (hexDigit_form d).right.left hd.symm

theorem slash_notMem_encodeRemoteAddr (r : Text) : slash ∉ encodeRemoteAddr r := by
  unfold encodeRemoteAddr
  split
  case isTrue => decide
  case isFalse => exact slash_notMem_base64Encode r

end Parts

-- The parts of a label between the slashes.
def ParsedLabel.parts (p : ParsedLabel) : List Text :=
  match p.kind with
  | .control =>
    [p.session.string, ascii "control", p.client.string, encodeRemoteAddr p.remote]
  | .packet => [p.session.string, ascii "packet"]
  | .service => [p.session.string, ascii "service", formatUint p.service, formatUint p.channelID]

-- The fields that the formatter of the kind admits. The fields of other kinds are not set.
@[local simp]
def ParsedLabel.Valid (p : ParsedLabel) : Prop :=
  p.session ≠ .zero ∧
  match p.kind with
  | .control => p.client ≠ .zero ∧ p.remote.length ≤ maxRemoteAddrSize ∧ p.service = 0 ∧
      p.channelID = 0
  | .packet => p.client = .zero ∧ p.remote = [] ∧ p.service = 0 ∧ p.channelID = 0
  | .service => p.client = .zero ∧ p.remote = [] ∧ p.channelID ≠ 0

theorem parseParts_eq_ok_iff {p : ParsedLabel} :
    parseParts S parts = .ok p ↔ p.Valid ∧ parts = p.parts := by
  constructor
  case mp =>
    intro h
    unfold parseParts at h
    split at h
    case h_2 => cases h
    case h_1 =>
      have ⟨id, hid, h⟩ := Except.bind_eq_ok.mp h
      have ⟨hz, hs⟩ := parseSessionID_eq_ok_iff.mp hid
      split at h
      case isTrue hk =>
        split at h
        case h_2 => cases h
        case h_1 =>
          have ⟨k, hc, h⟩ := Except.bind_eq_ok.mp h
          have ⟨r, hr, h⟩ := Except.bind_eq_ok.mp h
          have ⟨hkz, hc⟩ := parseClient_eq_ok_iff.mp hc
          have ⟨hl, hr⟩ := decodeRemoteAddr_eq_ok_iff.mp hr
          cases h
          exact ⟨⟨hz, hkz, hl, rfl, rfl⟩, by rw [hs, hk, hc, hr]; rfl⟩
      case isFalse =>
        split at h
        case isTrue hk =>
          split at h
          case h_2 => cases h
          case h_1 =>
            cases h
            exact ⟨⟨hz, rfl, rfl, rfl, rfl⟩, by rw [hs, hk]; rfl⟩
        case isFalse =>
          split at h
          case isFalse => cases h
          case isTrue hk =>
            split at h
            case h_2 => cases h
            case h_1 =>
              have ⟨n, hn, h⟩ := Except.bind_eq_ok.mp h
              have ⟨c, hc, h⟩ := Except.bind_eq_ok.mp h
              have ⟨_, hn⟩ := parseCanonicalUint_eq_ok_iff.mp hn
              have ⟨hcz, hc⟩ := parseCanonicalUint_eq_ok_iff.mp hc
              cases h
              exact ⟨⟨hz, rfl, rfl, by simpa using hcz⟩, by rw [hs, hk, hn, hc]; rfl⟩
  case mpr =>
    rintro ⟨⟨hz, hv⟩, rfl⟩
    have hid := parseSessionID_eq_ok_iff (S := S).mpr ⟨hz, rfl⟩
    have hne : ascii "packet" ≠ ascii "control" ∧ ascii "service" ≠ ascii "control" ∧
        ascii "service" ≠ ascii "packet" := by decide
    obtain ⟨kind, session, client, remote, service, channelID⟩ := p
    cases kind
    case control =>
      obtain ⟨hkz, hl, rfl, rfl⟩ := hv
      have hc := parseClient_eq_ok_iff (S := S).mpr ⟨hkz, rfl⟩
      have hr := decodeRemoteAddr_eq_ok_iff.mpr ⟨hl, rfl⟩
      simp only [ParsedLabel.parts, parseParts, hid, hc, hr, Except.bind_ok, if_true]
      rfl
    case packet =>
      obtain ⟨rfl, rfl, rfl, rfl⟩ := hv
      simp only [ParsedLabel.parts, parseParts, hid, Except.bind_ok, hne, if_true, if_false]
      rfl
    case service =>
      obtain ⟨rfl, rfl, hcz⟩ := hv
      have hn := parseCanonicalUint_eq_ok_iff.mpr ⟨.inl rfl, Eq.refl (formatUint service)⟩
      have hc := parseCanonicalUint_eq_ok_iff.mpr
        ⟨(.inr hcz : false = true ∨ _), Eq.refl (formatUint channelID)⟩
      simp only [ParsedLabel.parts, parseParts, hid, hn, hc, Except.bind_ok, hne, if_true,
        if_false]
      rfl

theorem slash_notMem_parts (p : ParsedLabel) : ∀ part ∈ p.parts, slash ∉ part := by
  have hc : slash ∉ p.client.string := fun h => (Base58.mem_encodeToString h).left rfl
  have hw : slash ∉ ascii "control" ∧ slash ∉ ascii "packet" ∧ slash ∉ ascii "service" := by
    decide
  have hs := slash_notMem_sessionID p.session
  have hr := slash_notMem_encodeRemoteAddr p.remote
  have hn (n : Nat) : slash ∉ formatUint n := slash_notMem_formatUint n
  unfold ParsedLabel.parts
  cases p.kind <;> simp [hs, hc, hw, hr, hn]

theorem parts_ne_nil (p : ParsedLabel) : p.parts ≠ [] := by
  unfold ParsedLabel.parts
  cases p.kind <;> simp

def ParsedLabel.label (p : ParsedLabel) : Text :=
  labelPrefix ++ [slash].intercalate p.parts

theorem parseLabel_eq_ok_iff :
    parseLabel S label = .ok p ↔
      p.Valid ∧ label = p.label ∧ p.label.length ≤ maxLabelSize := by
  unfold parseLabel
  constructor
  case mp =>
    intro h
    have ⟨hl, h⟩ := Except.ite_error_eq_ok.mp h
    simp only [not_or, not_not, not_lt] at hl
    have ⟨_, hlen, rest, hr⟩ := hl
    have ⟨hv, hp⟩ := parseParts_eq_ok_iff.mp h
    have he : label = p.label := by
      rw [← hr, List.drop_left] at hp
      rw [ParsedLabel.label, ← hp, List.intercalate_splitOn, hr]
    exact ⟨hv, he, he ▸ hlen⟩
  case mpr =>
    rintro ⟨hv, rfl, hlen⟩
    rw [if_neg]
    case hnc =>
      simp only [not_or, not_not, not_lt]
      exact ⟨by simp [ParsedLabel.label, labelPrefix, ascii], hlen, List.prefix_append ..⟩
    rw [ParsedLabel.label, List.drop_left,
      List.splitOn_intercalate slash (slash_notMem_parts p) (parts_ne_nil p)]
    exact parseParts_eq_ok_iff.mpr ⟨hv, rfl⟩

section Formatters

theorem intercalate_four (a b c d : Text) :
    [slash].intercalate [a, b, c, d] = a ++ (slash :: b ++ [slash]) ++ c ++ [slash] ++ d := by
  simp [List.intercalate, List.intersperse]

theorem controlLabel_eq_ok_iff :
    controlLabel d = .ok label ↔
      let p : ParsedLabel :=
        { kind := .control, session := d.sessionID, client := d.clientPublicKey
          remote := d.remoteAddr }
      p.Valid ∧ label = p.label ∧ p.label.length ≤ maxLabelSize := by
  have hl : labelPrefix ++ d.sessionID.string ++ ascii "/control/" ++ d.clientPublicKey.string ++
      ascii "/" ++ encodeRemoteAddr d.remoteAddr = ParsedLabel.label
        { kind := .control, session := d.sessionID, client := d.clientPublicKey
          remote := d.remoteAddr } := by
    have hw : slash :: ascii "control" ++ [slash] = ascii "/control/" := by decide
    simp only [ParsedLabel.label, ParsedLabel.parts, intercalate_four, hw, List.append_assoc]
    rfl
  unfold controlLabel
  rw [hl]
  simp only [ParsedLabel.Valid]
  by_cases hv : d.sessionID = .zero ∨ d.clientPublicKey = .zero ∨
      maxRemoteAddrSize < d.remoteAddr.length
  case pos =>
    rw [if_pos hv]
    simp only [reduceCtorEq, false_iff]
    rintro ⟨⟨hs, hk, hr, _⟩, _⟩
    rcases hv with hv | hv | hv
    case inl => exact hs hv
    case inr.inl => exact hk hv
    case inr.inr => omega
  case neg =>
    rw [if_neg hv]
    simp only [not_or, not_lt] at hv
    split
    case isTrue h => simp [h]
    case isFalse h => simp [hv, not_lt.mp h, eq_comm]

theorem length_labelPrefix : labelPrefix.length = 17 := by
  decide

theorem length_sessionID (id : SessionID) : id.string.length = 32 := by
  simp [SessionID.string]

theorem packetLabel_eq_ok_iff {id : SessionID} :
    packetLabel id = .ok label ↔
      let p : ParsedLabel := { kind := .packet, session := id }
      p.Valid ∧ label = p.label ∧ p.label.length ≤ maxLabelSize := by
  have hl : labelPrefix ++ id.string ++ ascii "/packet" =
      ParsedLabel.label { kind := .packet, session := id } := by
    have hw : slash :: ascii "packet" = ascii "/packet" := by decide
    simp [ParsedLabel.label, ParsedLabel.parts, List.intercalate, List.intersperse, ← hw]
  have hn : (labelPrefix ++ id.string ++ ascii "/packet").length ≤ maxLabelSize := by
    rw [List.length_append, List.length_append, length_labelPrefix, length_sessionID]
    decide
  unfold packetLabel
  rw [hl] at hn ⊢
  by_cases hz : id = .zero
  case pos => simp [hz]
  case neg => simp [hz, hn, eq_comm]

theorem serviceLabel_eq_ok_iff {id : SessionID} :
    serviceLabel id service channelID = .ok label ↔
      let p : ParsedLabel := { kind := .service, session := id, service, channelID }
      p.Valid ∧ label = p.label ∧ p.label.length ≤ maxLabelSize := by
  have hl : labelPrefix ++ id.string ++ ascii "/service/" ++ formatUint service ++ ascii "/" ++
      formatUint channelID =
        ParsedLabel.label { kind := .service, session := id, service, channelID } := by
    have hw : slash :: ascii "service" ++ [slash] = ascii "/service/" := by decide
    simp only [ParsedLabel.label, ParsedLabel.parts, intercalate_four, hw, List.append_assoc]
    rfl
  have hn : (labelPrefix ++ id.string ++ ascii "/service/" ++ formatUint service ++ ascii "/" ++
      formatUint channelID).length ≤ maxLabelSize := by
    have hs := length_formatUint service.isLt
    have hc := length_formatUint channelID.isLt
    have hw : (ascii "/service/").length = 9 ∧ (ascii "/").length = 1 := by decide
    simp only [List.length_append, length_labelPrefix, length_sessionID, hw, maxLabelSize]
    omega
  unfold serviceLabel
  rw [hl] at hn ⊢
  by_cases hz : id = .zero ∨ channelID = 0
  case pos =>
    rw [if_pos hz]
    simp only [reduceCtorEq, false_iff]
    rintro ⟨⟨hs, _, _, hc⟩, _⟩
    exact hz.elim hs hc
  case neg =>
    simp only [not_or] at hz
    simp [hz, hn, eq_comm]

end Formatters

theorem parseLabel_canonical (S : Strings) :
    (∀ d label, controlLabel d = .ok label → parseLabel S label = .ok
      { kind := .control, session := d.sessionID, client := d.clientPublicKey
        remote := d.remoteAddr }) ∧
    (∀ id label, packetLabel id = .ok label →
      parseLabel S label = .ok { kind := .packet, session := id }) ∧
    (∀ id service channelID label, serviceLabel id service channelID = .ok label →
      parseLabel S label = .ok { kind := .service, session := id, service, channelID }) ∧
    (∀ label p, parseLabel S label = .ok p → p.format = .ok label) ∧
    ∀ label label' p, parseLabel S label = .ok p → parseLabel S label' = .ok p →
      label = label' := by
  refine ⟨?control, ?packet, ?service, ?format, ?same⟩
  case control => exact fun _ _ h => parseLabel_eq_ok_iff.mpr (controlLabel_eq_ok_iff.mp h)
  case packet => exact fun _ _ h => parseLabel_eq_ok_iff.mpr (packetLabel_eq_ok_iff.mp h)
  case service => exact fun _ _ _ _ h => parseLabel_eq_ok_iff.mpr (serviceLabel_eq_ok_iff.mp h)
  case format =>
    intro label p h
    have ⟨hv, hl, hn⟩ := parseLabel_eq_ok_iff.mp h
    obtain ⟨kind, session, client, remote, service, channelID⟩ := p
    cases kind
    case control =>
      obtain ⟨rfl, rfl⟩ := hv.right.right.right
      exact controlLabel_eq_ok_iff.mpr ⟨hv, hl, hn⟩
    case packet =>
      obtain ⟨rfl, rfl, rfl, rfl⟩ := hv.right
      exact packetLabel_eq_ok_iff.mpr ⟨hv, hl, hn⟩
    case service =>
      obtain ⟨rfl, rfl, _⟩ := hv.right
      exact serviceLabel_eq_ok_iff.mpr ⟨hv, hl, hn⟩
  case same =>
    intro label label' p h h'
    rw [(parseLabel_eq_ok_iff.mp h).right.left, (parseLabel_eq_ok_iff.mp h').right.left]

namespace Sample

-- Go's texts, as far as they are ASCII.
def strings : Strings where
  trimSpace := fun t => ((t.dropWhile (· ≤ 32)).reverse.dropWhile (· ≤ 32)).reverse
  trimSpace_eq := by
    intro t h
    have hd (t : Text) (h : ∀ b ∈ t, 33 ≤ b ∧ b ≤ 126) : t.dropWhile (· ≤ 32) = t := by
      cases t
      case nil => rfl
      case cons b bs =>
        have hb : 32 < b := lt_of_lt_of_le (by decide) (h b List.mem_cons_self).left
        exact List.dropWhile_cons_of_neg (by simp [hb])
    rw [hd t h, hd t.reverse fun b hb => h b (List.mem_reverse.mp hb), List.reverse_reverse]
  toLower := List.map PendingDeletion.toLower
  toLower_ascii := fun _ _ => rfl

def session : SessionID :=
  ⟨1 :: List.replicate 15 0, rfl⟩

def client : PublicKey :=
  ⟨List.replicate 31 0 ++ [7], rfl⟩

end Sample

theorem parseLabel_canonical_sample :
    ∃ label, controlLabel ⟨Sample.session, Sample.client, ascii "edge"⟩ = .ok label ∧
      label = ascii ("giznet/v2/tunnel/01000000000000000000000000000000/control/" ++
        "11111111111111111111111111111118/ZWRnZQ") ∧
      parseLabel Sample.strings label = .ok
        { kind := .control, session := Sample.session, client := Sample.client
          remote := ascii "edge" } := by
  have h : controlLabel ⟨Sample.session, Sample.client, ascii "edge"⟩ =
      .ok (ascii ("giznet/v2/tunnel/01000000000000000000000000000000/control/" ++
        "11111111111111111111111111111118/ZWRnZQ")) := by decide +kernel
  exact ⟨_, h, rfl, (parseLabel_canonical Sample.strings).left _ _ h⟩

end GizClaw.Tunnel

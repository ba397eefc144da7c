import GizClaw.PendingDeletion.Listing
import GizClaw.PendingDeletion.Theorems.Index

-- Pages of due and of active tasks are exact, unless a deletion ID cannot be told from an index
-- member or be used in a cursor.

namespace GizClaw.PendingDeletion

open Interleaving Paging
open KV (OrderedRange)

variable {P : Platform} {σ : Store} {src : KVSource} {task task' : Task} {x : Text} {t t' : Time}
  {k : Key}

attribute [local simp] KV.Typed.Store.members kvCreatedIndexKey kvDueIndexKey collectTasks

section UUIDs

variable {id id' : Text}

theorem getElem?_isDashed (h : isDashed s = true) (i : Fin 36) :
    ∃ b, s[i.val]? = some b ∧ if i.val ∈ [8, 13, 18, 23] then b = 45 else isHexDigit b = true := by
  have h := of_decide_eq_true h i
  cases hb : s[i.val]?
  case none => simp [hb] at h
  case some b =>
    refine ⟨b, rfl, ?_⟩
    simp only [hb, Option.any_some] at h
    by_cases hi : i.val ∈ [8, 13, 18, 23]
    case pos => simpa only [hi, if_true, decide_eq_true_eq] using h
    case neg => simpa only [hi, if_false] using h

-- The bytes that tell the accepted forms apart.
inductive Form (s : Text) : Prop
  | dashed (hl : s.length = 36) (h0 : ∃ b, s[0]? = some b ∧ isHexDigit b = true)
    (h8 : s[8]? = some 45)
  | urn (hl : s.length = 45) (h0 : ∃ b, s[0]? = some b ∧ isHexDigit b = false)
    (h1 : ∃ b, s[1]? = some b ∧ isHexDigit b = false)
  | braced (hl : s.length = 38) (h1 : ∃ b, s[1]? = some b ∧ isHexDigit b = true)
    (h8 : ∃ b, s[8]? = some b ∧ isHexDigit b = true) (h9 : s[9]? = some 45)
  | plain (hl : s.length = 32) (h : ∀ i < 32, ∃ b, s[i]? = some b ∧ isHexDigit b = true)

theorem not_isHexDigit_of_toLower (h : toLower b = 117 ∨ toLower b = 114) :
    isHexDigit b = false := by
  revert b
  decide +kernel

theorem form_of_parseUUID (h : parseUUID id = true) : Form id := by
  unfold parseUUID at h
  split_ifs at h with h36 h45 h38 h32
  · have ⟨b, hb, h0⟩ := getElem?_isDashed h 0
    have ⟨c, hc, h8⟩ := getElem?_isDashed h 8
    exact .dashed h36 ⟨b, hb, h0⟩ (by rw [show (45 : Byte) = c from h8.symm]; exact hc)
  · have ⟨hu, _⟩ := of_decide_eq_true h
    have hget : ∀ i < 9, ∃ b, id[i]? = some b ∧ (ascii "urn:uuid:")[i]? = some (toLower b) := by
      intro i hi
      have hlt : i < id.length := by omega
      refine ⟨id[i], List.getElem?_eq_getElem hlt, ?_⟩
      rw [← hu, List.getElem?_map, List.getElem?_take_of_lt hi, List.getElem?_eq_getElem hlt]
      rfl
    have ⟨b, hb, h0⟩ := hget 0 (by omega)
    have ⟨c, hc, h1⟩ := hget 1 (by omega)
    refine .urn h45 ⟨b, hb, not_isHexDigit_of_toLower (.inl ?_)⟩
      ⟨c, hc, not_isHexDigit_of_toLower (.inr ?_)⟩
    · exact (Option.some.inj h0).symm
    · exact (Option.some.inj h1).symm
  · have ⟨b, hb, h0⟩ := getElem?_isDashed h 0
    have ⟨c, hc, h7⟩ := getElem?_isDashed h 7
    have ⟨d, hd, h8⟩ := getElem?_isDashed h 8
    simp only [List.getElem?_drop] at hb hc hd
    exact .braced h38 ⟨b, hb, h0⟩ ⟨c, hc, h7⟩ (by rw [show (45 : Byte) = d from h8.symm]; exact hd)
  · refine .plain h32 fun i hi => ?_
    have hlt : i < id.length := by omega
    exact ⟨id[i], List.getElem?_eq_getElem hlt, List.all_eq_true.mp h _ (List.getElem_mem hlt)⟩

-- No accepted ID starts another one.
theorem eq_of_isPrefix (h : parseUUID id = true) (h' : parseUUID id' = true) (hp : id <+: id') :
    id = id' := by
  have hget : ∀ i < id.length, id'[i]? = id[i]? := by
    obtain ⟨rest, rfl⟩ := hp
    exact fun i hi => List.getElem?_append_left hi
  have hne : ∀ (i : Nat) (b c : Byte), id[i]? = some b → id'[i]? = some c →
      isHexDigit b ≠ isHexDigit c → False := by
    intro i b c hb hc hn
    have hi := (List.getElem?_eq_some_iff.mp hb).fst
    rw [hget i hi, hb] at hc
    exact hn (congrArg isHexDigit (Option.some.inj hc))
  have hle := hp.length_le
  have hdash : isHexDigit 45 = false := by decide
  cases form_of_parseUUID h
  case dashed h0 h8 =>
    have ⟨b, hb, hb'⟩ := h0
    cases form_of_parseUUID h'
    case dashed => exact hp.eq_of_length (by omega)
    case urn h0' _ =>
      have ⟨c, hc, hc'⟩ := h0'
      exact (hne 0 b c hb hc (by simp [hb', hc'])).elim
    case braced h8' _ =>
      have ⟨c, hc, hc'⟩ := h8'
      exact (hne 8 45 c h8 hc (by simp [hdash, hc'])).elim
    case plain => omega
  case urn _ _ =>
    cases form_of_parseUUID h'
    case urn => exact hp.eq_of_length (by omega)
    all_goals omega
  case braced h1 _ _ =>
    have ⟨b, hb, hb'⟩ := h1
    cases form_of_parseUUID h'
    case braced => exact hp.eq_of_length (by omega)
    case urn h1' =>
      have ⟨c, hc, hc'⟩ := h1'
      exact (hne 1 b c hb hc (by simp [hb', hc'])).elim
    all_goals omega
  case plain hhex =>
    cases form_of_parseUUID h'
    case plain => exact hp.eq_of_length (by omega)
    case dashed h8' =>
      have ⟨b, hb, hb'⟩ := hhex 8 (by omega)
      exact (hne 8 b 45 hb h8' (by simp [hdash, hb'])).elim
    case urn h0' _ =>
      have ⟨b, hb, hb'⟩ := hhex 0 (by omega)
      have ⟨c, hc, hc'⟩ := h0'
      exact (hne 0 b c hb hc (by simp [hb', hc'])).elim
    case braced h9' =>
      have ⟨b, hb, hb'⟩ := hhex 9 (by omega)
      exact (hne 9 b 45 hb h9' (by simp [hdash, hb'])).elim

theorem ne_nil_of_parseUUID (h : parseUUID id = true) : id ≠ [] := by
  rintro rfl
  exact absurd h (by decide)

end UUIDs

section Bounds

variable {id : Text}

theorem format_append_lt_iff : P.format t ++ a < P.format t' ++ b ↔ t < t' ∨ (t = t' ∧ a < b) := by
  have hl : (P.format t).length = (P.format t').length := by rw [P.format_length, P.format_length]
  rw [Bytes.append_lt_append_iff_of_free (fun h => h.eq_of_length hl)
    (fun h => h.eq_of_length hl.symm), P.format_lt]
  refine or_congr_right (and_congr_left fun _ => ⟨fun he => ?_, fun he => he ▸ rfl⟩)
  by_contra hn
  rcases lt_or_gt_of_ne hn with h | h
  · exact absurd ((P.format_lt t t').mpr h) (he ▸ lt_irrefl _)
  · exact absurd ((P.format_lt t' t).mpr h) (he ▸ lt_irrefl _)

theorem kvIndexMember_eq : kvIndexMember P t task =
    P.format t ++ slash :: (task.record.deletionID ++ slash :: task.markerFingerprint) := by
  simp [kvIndexMember]

theorem format_lt_member_iff : P.format t < kvIndexMember P t' task ↔ t ≤ t' := by
  rw [← List.append_nil (P.format t), kvIndexMember_eq, format_append_lt_iff, le_iff_lt_or_eq]
  simp

theorem member_lt_format_iff : kvIndexMember P t task < P.format t' ↔ t < t' := by
  rw [← List.append_nil (P.format t'), kvIndexMember_eq, format_append_lt_iff]
  simp

theorem slash_lt : slash < 255 := by
  decide

theorem format_sentinel_lt_member_iff : P.format t ++ [255] < kvIndexMember P t' task ↔ t < t' := by
  rw [kvIndexMember_eq, format_append_lt_iff, or_iff_left]
  rintro ⟨_, h⟩
  rcases List.cons_lt_cons_iff.mp h with h | h
  · exact absurd h slash_lt.asymm
  · exact absurd h.left (ne_of_gt slash_lt)

theorem member_lt_format_sentinel_iff : kvIndexMember P t task < P.format t' ++ [255] ↔ t ≤ t' := by
  rw [kvIndexMember_eq, format_append_lt_iff, le_iff_lt_or_eq]
  refine or_congr_right (and_iff_left ?_)
  exact List.cons_lt_cons_iff.mpr (.inl slash_lt)

-- The sentinel is above every fingerprint.
theorem format_id_lt_member_iff (h : parseUUID id = true)
    (h' : parseUUID task.record.deletionID = true) (hf : ∀ b ∈ task.markerFingerprint, b < 255) :
    P.format t ++ (slash :: id ++ [slash, 255]) < kvIndexMember P t' task ↔
    t < t' ∨ (t = t' ∧ id < task.record.deletionID) := by
  rw [kvIndexMember_eq, format_append_lt_iff]
  refine or_congr_right (and_congr_right fun _ => ?_)
  rw [List.cons_append, List.cons_lt_cons_self,
    Bytes.append_lt_append_iff_of_free (eq_of_isPrefix h h') (eq_of_isPrefix h' h), or_iff_left]
  rintro ⟨_, hlt⟩
  rw [List.cons_lt_cons_self] at hlt
  cases hm : task.markerFingerprint
  case nil => simp [hm] at hlt
  case cons b bs =>
    rw [hm] at hlt hf
    have hb := hf b List.mem_cons_self
    rcases List.cons_lt_cons_iff.mp hlt with h | h
    · exact absurd h hb.asymm
    · exact absurd h.left (ne_of_gt hb)

variable {options : SourceListOptions}

theorem cursorBound_lt_member_iff (h : src.name = options.afterSource →
      parseUUID options.afterDeletionID = true) (h' : parseUUID task.record.deletionID = true)
    (hf : ∀ b ∈ task.markerFingerprint, b < 255) :
    cursorBound P src options t < kvIndexMember P t' task ↔ t < t' ∨ (t' = t ∧
      if src.name ≠ options.afterSource then options.afterSource < src.name
      else options.afterDeletionID < task.record.deletionID) := by
  unfold cursorBound
  rw [eq_comm (a := t') (b := t)]
  rcases lt_trichotomy src.name options.afterSource with hlt | heq | hgt
  · simp only [hlt, if_true, format_sentinel_lt_member_iff, ne_of_lt hlt, ne_eq, not_false_eq_true,
      hlt.asymm, and_false, or_false]
  · simp only [heq, lt_irrefl, if_false, if_true, format_id_lt_member_iff (h heq) h' hf, ne_eq,
      not_true_eq_false]
  · simp only [hgt.asymm, (ne_of_gt hgt), if_false, List.append_nil, format_lt_member_iff, ne_eq,
      not_false_eq_true, if_true, hgt, and_true, le_iff_lt_or_eq]

theorem listAfter_lt_iff : (∀ a ∈ listAfter P src options, a < x) ↔
    (∀ t ∈ options.startTime, P.format t < x) ∧
    ∀ t ∈ options.afterCreatedAt, cursorBound P src options t < x := by
  unfold listAfter
  cases hs : options.startTime <;> cases hc : options.afterCreatedAt <;> simp
  case some.some start created =>
    by_cases hlt : P.format start < cursorBound P src options created
    case pos => simpa [hlt] using hlt.trans
    case neg => simpa [hlt] using lt_of_le_of_lt (not_lt.mp hlt)

theorem contains_member_iff (h : src.name = options.afterSource → options.afterCreatedAt.isSome →
      parseUUID options.afterDeletionID = true)
    (h' : parseUUID task.record.deletionID = true) (hf : ∀ b ∈ task.markerFingerprint, b < 255)
    (hsrc : task.source = src.name) :
    (listQuery P src options).Contains (kvIndexMember P task.record.deletedAt task) ↔
    (∀ t ∈ options.startTime, ¬task.record.deletedAt < t) ∧
    (∀ t ∈ options.endTime, task.record.deletedAt < t) ∧
    ∀ t ∈ options.afterCreatedAt, t < task.record.deletedAt ∨ (task.record.deletedAt = t ∧
      if task.source ≠ options.afterSource then options.afterSource < task.source
      else options.afterDeletionID < task.record.deletionID) := by
  have hend : (∀ b ∈ options.endTime.map P.format,
      kvIndexMember P task.record.deletedAt task < b) ↔
      ∀ t ∈ options.endTime, task.record.deletedAt < t := by
    cases options.endTime <;> simp [member_lt_format_iff]
  unfold OrderedRange.Contains
  simp only [listQuery, listAfter_lt_iff, format_lt_member_iff, not_lt, hend, hsrc]
  rw [and_assoc, and_comm (b := ∀ t ∈ options.endTime, _)]
  refine and_congr_right fun _ => and_congr_right fun _ => forall₂_congr fun t ht => ?_
  exact cursorBound_lt_member_iff (fun he => h he (Option.isSome_iff_exists.mpr ⟨t, ht⟩)) h' hf

end Bounds

section Members

variable {id : Text}

theorem lt_of_isLowerHex (h : isLowerHex b = true) : b < 255 := by
  revert b
  decide +kernel

theorem isLowerHex_fingerprint (h : b ∈ P.fingerprint r) : isLowerHex b = true := by
  simpa [isLowerHex] using (P.hex r).right b h

theorem slash_notMem_fingerprint : slash ∉ P.fingerprint r := by
  intro h
  exact absurd (isLowerHex_fingerprint h) (by decide)

theorem parseKVIndexMember_member (hf : task.markerFingerprint = P.fingerprint task.record)
    (hu : parseUUID task.record.deletionID = true) (hs : slash ∉ task.record.deletionID) :
    parseKVIndexMember P (kvIndexMember P t task) =
    .ok (t, task.record.deletionID, task.markerFingerprint) := by
  have hsplit : (kvIndexMember P t task).splitOn slash =
      [P.format t, task.record.deletionID, task.markerFingerprint] := by
    have he : kvIndexMember P t task =
        [slash].intercalate [P.format t, task.record.deletionID, task.markerFingerprint] := by
      simp [kvIndexMember_eq, List.intercalate, List.intersperse]
    rw [he]
    refine List.splitOn_intercalate slash ?_ (by simp)
    simp [P.format_slash, hs, hf, slash_notMem_fingerprint]
  have hhex : task.markerFingerprint.length = 64 ∧ task.markerFingerprint.all
      isLowerHex = true := by
    rw [hf]
    exact ⟨(P.hex _).left, List.all_eq_true.mpr fun b hb => isLowerHex_fingerprint hb⟩
  unfold parseKVIndexMember
  rw [hsplit]
  simp [ne_nil_of_parseUUID hu, P.parse_format, hhex]

theorem slash_notMem_of_parse (h : parseKVIndexMember P x = .ok (t, id, fp)) : slash ∉ id := by
  unfold parseKVIndexMember at h
  split at h
  case h_2 => contradiction
  case h_1 id' fp' hx =>
    have hmem : id' ∈ x.splitOn slash := by simp [hx]
    have ⟨_, h⟩ := Except.ite_error_eq_ok.mp h
    split at h
    case h_1 => contradiction
    case h_2 =>
      split_ifs at h
      cases h
      exact Bytes.not_mem_of_mem_splitOn hmem

end Members

section Loading

variable {id : Text}

theorem does_reading (a : Act) : Does a ⟨σ, []⟩ (reading σ a) ⟨σ, []⟩ := by
  cases a
  case get => exact .get _ _
  case apply => exact .applyFailed ..
  case newToken => exact .noToken ..

theorem eval_load (h : σ k = some (.record v)) : evalOk (reading σ) (load k) = .ok (some v) := by
  have hg : σ.get k = .ok v := KV.Typed.Store.get_eq_ok.mpr h
  simp [evalOk, load, Program.eval, reading, hg]

theorem eval_loadTask (hs : Stored σ task) (hk : task.record.kind ∈ src.ownedKinds)
    (hsrc : task.source = src.name) (hv : validateStoredTask P task = .ok ()) :
    evalOk (reading σ) (loadTask P src task.record.deletionID) =
    .ok (task, encodeKVTaskState task) := by
  have hd : decodeTask P src.name task.record (encodeKVTaskState task) = .ok task := by
    rw [← hsrc]
    exact decodeTask_eq_ok.mpr ⟨rfl, hv⟩
  have hr : evalOk (reading σ) (getStoredRecord task.record.deletionID) =
      .ok (some task.record) := by
    unfold getStoredRecord
    rw [evalOk_bind, eval_load hs.record]
    simp
  unfold loadTask
  rw [evalOk_bind, hr]
  simp [hk, eval_load hs.state, hd]

theorem eval_loadTask_eq_ok (h : evalOk (reading σ) (loadTask P src id) = .ok (task, raw)) :
    task.record.deletionID = id := by
  have hs : Keeps (fun _ => True)
      (fun x => Loaded P (fun _ => True) id x ∧ x.fst.source = src.name) ⟨σ, []⟩
      (loadTask P src id) :=
    keeps_loadTask (fun _ _ _ _ _ => trivial) src id
  exact (Safe.eval (reading σ) hs trivial trivial does_reading (task, raw) h).left.right.left

end Loading

section Ranges

variable {q : OrderedRange} {keys : List Key}

-- All members in the range, in order.
def inRange (σ : Store) (keys : List Key) (q : OrderedRange) : List Text :=
  (keys.toFinset.biUnion fun k => (σ.members true k).filter q.Contains).sort (· ≤ ·)

theorem mem_inRange : x ∈ inRange σ keys q ↔ ∃ k ∈ keys, x ∈ σ.members true k ∧ q.Contains x := by
  simp [inRange]

theorem ascending_sort (s : Finset Text) : Ascending id (s.sort (· ≤ ·)) :=
  s.sortedLT_sort.pairwise

theorem rangeOrderedMembers_eq (h : σ.OfKind true k) (hq : 0 < q.limit) :
    σ.rangeOrderedMembers k q =
    .ok ((((σ.members true k).filter q.Contains).sort (· ≤ ·)).take q.limit.toNat) := by
  have hv : q.validate = .ok () := by
    unfold OrderedRange.validate
    rw [if_neg (by omega)]
  unfold KV.Typed.Store.rangeOrderedMembers
  rw [hv, Except.bind_ok]
  cases hk : σ k
  case none => simp [hk]
  case some v =>
    obtain ⟨s, rfl⟩ := h v hk
    simp [hk]

-- Of each shard only a part is read, which is enough for the first ones of all shards.
theorem readKVTaskIndexes_eq (h : ∀ k ∈ keys, σ.OfKind true k) (hq : 0 < q.limit) :
    ∃ r, readKVTaskIndexes σ keys q = .ok r ∧ Ascending id r ∧
    (∀ x ∈ r, x ∈ inRange σ keys q) ∧
    r.take q.limit.toNat = (inRange σ keys q).take q.limit.toNat := by
  let full := fun k => ((σ.members true k).filter q.Contains).sort (· ≤ ·)
  let part := fun k => (full k).take q.limit.toNat
  let sorted := (keys.map part).flatten.insertionSort (· ≤ ·)
  have hr : readKVTaskIndexes σ keys q = .ok (compact sorted) := by
    unfold readKVTaskIndexes
    rw [Except.mapM_eq_ok_map (g := part)]
    · rfl
    · intro k hk
      rw [rangeOrderedMembers_eq (h k hk) hq]
      rfl
  have hmem : ∀ x, x ∈ compact sorted ↔ ∃ l ∈ keys.map full, x ∈ l.take q.limit.toNat := by
    intro x
    simp [mem_compact, sorted, part]
  have hfull : ∀ x, x ∈ inRange σ keys q ↔ ∃ l ∈ keys.map full, x ∈ l := by
    intro x
    simp [mem_inRange, full]
  have hasc : Ascending id (compact sorted) :=
    ascending_compact (List.pairwise_insertionSort (· ≤ ·) _)
  refine ⟨compact sorted, hr, hasc, fun x hx => ?_, ?_⟩
  · have ⟨l, hl, hx⟩ := (hmem x).mp hx
    exact (hfull x).mpr ⟨l, hl, List.mem_of_mem_take hx⟩
  · refine take_eq_of_prefixes (k := id) ?_ (ascending_sort _) hasc hfull hmem
    simp only [List.mem_map, forall_exists_index, and_imp, forall_apply_eq_imp_iff₂]
    exact fun k _ => ascending_sort _

end Ranges

section Owned

variable {kind kind' : Kind} {status status' : Status} {shard shard' : Shard}
  {options : SourceListOptions}

@[simp]
theorem Status.text_inj : status.text = status'.text ↔ status = status' := by
  cases status <;> cases status' <;> decide

theorem decimal_inj : decimal shard.val = decimal shard'.val ↔ shard = shard' := by
  revert shard shard'
  decide

theorem lists_created_iff : Lists P (some task) (kvCreatedIndexKey kind status shard) x ↔
    kind = task.record.kind ∧ status = task.status ∧
    shard = kvTaskShard P task.record.deletionID ∧
    x = kvIndexMember P task.record.deletedAt task := by
  have hne : ∀ shard', kvDueIndexKey task.record.kind shard' ≠ kvCreatedIndexKey kind
      status shard := by
    simp
  unfold Lists KV.Typed.Names
  simp only [kvTaskIndexes, List.mem_cons]
  constructor
  case mp =>
    rintro ⟨g, rfl | hg, hk, hx⟩
    case inl =>
      simp only [kvCreatedIndexKey, List.cons.injEq, Kind.text_inj, Status.text_inj, decimal_inj,
        true_and, and_true] at hk
      exact ⟨hk.left.symm, hk.right.left.symm, hk.right.right.symm, by simpa using hx⟩
    case inr =>
      split at hg
      case isFalse => simp at hg
      case isTrue =>
        simp only [List.mem_singleton] at hg
        subst hg
        exact absurd hk (hne _)
  case mpr =>
    rintro ⟨rfl, rfl, rfl, rfl⟩
    exact ⟨_, .inl rfl, rfl, by simp⟩

theorem lists_due_iff : Lists P (some task) (kvDueIndexKey kind shard) x ↔
    kind = task.record.kind ∧ shard = kvTaskShard P task.record.deletionID ∧ dueAt task ≠ 0 ∧
    x = kvIndexMember P (dueAt task) task := by
  have hne : ∀ status' shard',
      kvCreatedIndexKey task.record.kind status' shard' ≠ kvDueIndexKey kind shard := by
    simp
  unfold Lists KV.Typed.Names
  simp only [kvTaskIndexes, List.mem_cons]
  constructor
  case mp =>
    rintro ⟨g, rfl | hg, hk, hx⟩
    case inl => exact absurd hk (hne _ _)
    case inr =>
      split at hg
      case isFalse => simp at hg
      case isTrue hdue =>
        simp only [List.mem_singleton] at hg
        subst hg
        simp only [kvDueIndexKey, List.cons.injEq, Kind.text_inj, decimal_inj, true_and,
          and_true] at hk
        exact ⟨hk.left.symm, hk.right.symm, hdue, by simpa using hx⟩
  case mpr =>
    rintro ⟨rfl, rfl, hdue, rfl⟩
    exact ⟨_, .inr (by rw [if_pos hdue]; exact List.mem_singleton_self _), rfl, by simp⟩

-- The tasks that a source has in its store.
structure Owned (src : KVSource) (σ : Store) (task : Task) : Prop where
  stored : Stored σ task
  source : task.source = src.name
  kind : task.record.kind ∈ src.ownedKinds

-- Any source that owns the kind of a stored task makes it its own.
theorem Stored.owned (h : Stored σ task) (hk : task.record.kind ∈ src.ownedKinds) :
    Owned src σ { task with source := src.name } where
  stored := ⟨h.record, h.state⟩
  source := rfl
  kind := hk

theorem Owned.eq (h : Owned src σ task) (h' : Owned src σ task')
    (hid : task.record.deletionID = task'.record.deletionID) : task = task' := by
  have hr := h'.stored.record
  have hs := h'.stored.state
  rw [← hid, h.stored.record] at hr
  rw [← hid, h.stored.state] at hs
  simp only [Option.some.injEq, KV.Typed.Content.record.injEq, Value.record.injEq,
    Value.state.injEq, encodeKVTaskState, KVTaskState.mk.injEq] at hr hs
  have hsrc := h.source.trans h'.source.symm
  cases task
  cases task'
  simp_all

theorem Owned.parseUUID (hσ : Sound P σ) (h : Owned src σ task) :
    parseUUID task.record.deletionID = true :=
  (Record.validate_eq_ok (hσ.valid task h.stored).left).left

theorem Owned.lt_sentinel (hσ : Sound P σ) (h : Owned src σ task) :
    ∀ b ∈ task.markerFingerprint, b < 255 := by
  rw [(hσ.valid task h.stored).right.left]
  exact fun b hb => lt_of_isLowerHex (isLowerHex_fingerprint hb)

theorem mem_createdKeys : k ∈ createdKeys src options ↔ ∃ kind status shard,
    k = kvCreatedIndexKey kind status shard ∧ kind ∈ src.ownedKinds ∧
    (options.kinds = [] ∨ kind ∈ options.kinds) ∧
    (options.statuses = [] ∨ status ∈ options.statuses) := by
  have hall : ∀ status, status ∈ allStatuses := by
    intro status
    cases status <;> decide
  simp only [createdKeys, List.mem_flatMap, List.mem_filter, decide_eq_true_eq, hall, true_and,
    List.mem_map, shards, List.mem_finRange]
  constructor
  case mp =>
    rintro ⟨kind, ⟨hk, hks⟩, status, hst, shard, rfl⟩
    exact ⟨kind, status, shard, rfl, hk, hks, hst⟩
  case mpr =>
    rintro ⟨kind, status, shard, rfl, hk, hks, hst⟩
    exact ⟨kind, ⟨hk, hks⟩, status, hst, shard, rfl⟩

theorem mem_dueKeys : k ∈ dueKeys src ↔ ∃ kind shard,
    k = kvDueIndexKey kind shard ∧ kind ∈ src.ownedKinds := by
  simp only [dueKeys, List.mem_flatMap, List.mem_map, shards, List.mem_finRange, true_and]
  constructor
  case mp =>
    rintro ⟨kind, hk, shard, rfl⟩
    exact ⟨kind, shard, rfl, hk⟩
  case mpr =>
    rintro ⟨kind, shard, rfl, hk⟩
    exact ⟨kind, hk, shard, rfl⟩

-- The cursor names a deletion ID if it is the cursor of the source itself.
def CursorOk (src : KVSource) (options : SourceListOptions) : Prop :=
  src.name = options.afterSource → options.afterCreatedAt.isSome →
    PendingDeletion.parseUUID options.afterDeletionID = true

theorem mem_inRange_created (hσ : Sound P σ) (hc : CursorOk src options) :
    x ∈ inRange σ (createdKeys src options) (listQuery P src options) ↔
    ∃ task, Owned src σ task ∧ taskMatches task options ∧
      x = kvIndexMember P task.record.deletedAt task := by
  rw [mem_inRange]
  constructor
  case mp =>
    rintro ⟨k, hk, hx, hq⟩
    have ⟨kind, status, shard, hk, hown, hkind, hstatus⟩ := mem_createdKeys.mp hk
    subst hk
    have ⟨task, hs, hl⟩ := (hσ.index _ (.created ..) x).mp hx
    have ⟨hk, hst, _, he⟩ := lists_created_iff.mp hl
    subst hk hst
    have ho := hs.owned hown
    refine ⟨_, ho, ?_, he⟩
    rw [he] at hq
    have hq := (contains_member_iff hc (ho.parseUUID hσ) (ho.lt_sentinel hσ) rfl).mp hq
    simpa only [taskMatches, Bool.decide_and, Bool.and_eq_true, decide_eq_true_eq] using
      ⟨hkind, hstatus, hq⟩
  case mpr =>
    rintro ⟨task, ho, hm, rfl⟩
    simp only [taskMatches, Bool.decide_and, Bool.and_eq_true, decide_eq_true_eq] at hm
    refine ⟨_, mem_createdKeys.mpr ⟨_, _, kvTaskShard P task.record.deletionID, rfl, ho.kind,
      hm.left, hm.right.left⟩, (hσ.index _ (.created ..) _).mpr ⟨task, ho.stored, ?_⟩, ?_⟩
    · exact lists_created_iff.mpr ⟨rfl, rfl, rfl, rfl⟩
    · exact (contains_member_iff hc (ho.parseUUID hσ) (ho.lt_sentinel hσ) ho.source).mpr
        hm.right.right

end Owned

section Source

variable {options : SourceListOptions}

-- The position of a task in a listing.
def order (task : Task) : Lex (Time × Lex (Text × Text)) :=
  toLex (task.record.deletedAt, toLex (task.source, task.record.deletionID))

theorem taskLess_iff : taskLess task task' = true ↔ order task < order task' := by
  unfold taskLess order
  rw [Prod.Lex.toLex_lt_toLex, Prod.Lex.toLex_lt_toLex]
  split_ifs with ht hs
  all_goals simp_all

-- The task behind an index member.
def taskAt (P : Platform) (src : KVSource) (σ : Store) (member : Text) : Option Task :=
  match parseKVIndexMember P member with
  | .error _ => none
  | .ok (_, id, _) =>
    match evalOk (reading σ) (loadTask P src id) with
    | .error _ => none
    | .ok (task, _) => some task

theorem validateSource_eq_ok (h : isName x = true) : validateSource P x = .ok () := by
  unfold isName at h
  split at h
  case h_1 => contradiction
  case h_2 b bs =>
    simp only [decide_eq_true_eq, List.all_eq_true] at h
    have hgraphic : ∀ c ∈ b :: bs, 33 ≤ c ∧ c ≤ 126 := by
      intro c hc
      rcases List.mem_cons.mp hc with rfl | hc
      case inl => exact ⟨le_trans (by decide) h.left.left, le_trans h.left.right (by decide)⟩
      case inr =>
        rcases h.right.right c hc with hc | hc | hc
        · exact ⟨le_trans (by decide) hc.left, le_trans hc.right (by decide)⟩
        · exact ⟨le_trans (by decide) hc.left, le_trans hc.right (by decide)⟩
        · subst hc
          decide
    unfold validateSource
    rw [P.trimSpace_eq _ hgraphic]
    simp

section

variable (hσ : Sound P σ) (hn : isName src.name = true) (h : Owned src σ task)
include hσ hn h

theorem Owned.validateStoredTask : validateStoredTask P task = .ok () := by
  have ⟨hr, hf, hv⟩ := hσ.valid task h.stored
  unfold PendingDeletion.validateStoredTask
  have hs : storedFingerprint P task.record = task.markerFingerprint := by
    rw [hf]
    exact Created.storedFingerprint (S := Set.univ) ⟨trivial, hr⟩
  rw [h.source, validateSource_eq_ok hn, Except.bind_ok, if_neg (not_not.mpr hs)]
  exact hv

theorem Owned.validateTask : validateTask P task = .ok () := by
  have ⟨hr, hf, hv⟩ := hσ.valid task h.stored
  unfold PendingDeletion.validateTask
  have hs : fingerprint P task.record = .ok task.markerFingerprint := by
    rw [hf]
    unfold fingerprint
    rw [hr]
    rfl
  rw [h.source, validateSource_eq_ok hn, Except.bind_ok, if_neg (not_not.mpr hs)]
  exact hv

theorem eval_loadTask_owned :
    evalOk (reading σ) (loadTask P src task.record.deletionID) =
    .ok (task, encodeKVTaskState task) :=
  eval_loadTask h.stored h.kind h.source (h.validateStoredTask hσ hn)

end

theorem parseKVIndexMember_owned (hσ : Sound P σ) (h : Owned src σ task)
    (hs : slash ∉ task.record.deletionID) :
    parseKVIndexMember P (kvIndexMember P t task) =
    .ok (t, task.record.deletionID, task.markerFingerprint) :=
  parseKVIndexMember_member (hσ.valid task h.stored).right.left (h.parseUUID hσ) hs

theorem taskAt_member (hσ : Sound P σ) (hn : isName src.name = true) (h : Owned src σ task)
    (hs : slash ∉ task.record.deletionID) :
    taskAt P src σ (kvIndexMember P t task) = some task := by
  unfold taskAt
  rw [parseKVIndexMember_owned hσ h hs]
  dsimp only
  rw [eval_loadTask_owned hσ hn h]

-- All members are about tasks that belong to the listing.
theorem collectTasks_eq (hσ : Sound P σ) (hn : isName src.name = true)
    (h : ∀ x ∈ ms, ∃ task, Owned src σ task ∧ taskMatches task options ∧
      slash ∉ task.record.deletionID ∧ x = kvIndexMember P task.record.deletedAt task)
    (room : Nat) : collectTasks P src σ options room ms =
      .ok ((ms.take room).filterMap (taskAt P src σ)) := by
  induction ms generalizing room
  case nil => cases room <;> simp
  case cons m ms hi =>
    cases room
    case zero => simp
    case succ =>
      have ⟨task, ho, hm, hs, he⟩ := h m List.mem_cons_self
      subst he
      unfold collectTasks
      rw [parseKVIndexMember_owned hσ ho hs, Except.bind_ok]
      dsimp only
      rw [eval_loadTask_owned hσ hn ho]
      dsimp only
      rw [if_neg (by simp [hm]), hi (fun x hx => h x (List.mem_cons_of_mem _ hx)), Except.bind_ok,
        List.take_succ_cons, List.filterMap_cons_some (taskAt_member hσ hn ho hs)]

-- All tasks of the source that belong to the listing, in order.
def tasksOf (P : Platform) (src : KVSource) (σ : Store) (options : SourceListOptions) : List Task :=
  (inRange σ (createdKeys src options) (listQuery P src options)).filterMap (taskAt P src σ)

section Listed

variable (hσ : Sound P σ) (hn : isName src.name = true) (hc : CursorOk src options)
  (hs : ∀ task, Owned src σ task → taskMatches task options → slash ∉ task.record.deletionID)
include hσ hn hc hs

theorem mem_tasksOf : task ∈ tasksOf P src σ options ↔ Owned src σ task ∧
    taskMatches task options := by
  unfold tasksOf
  rw [List.mem_filterMap]
  constructor
  case mp =>
    rintro ⟨x, hx, ht⟩
    have ⟨task', ho, hm, he⟩ := (mem_inRange_created hσ hc).mp hx
    rw [he, taskAt_member hσ hn ho (hs _ ho hm)] at ht
    cases ht
    exact ⟨ho, hm⟩
  case mpr =>
    rintro ⟨ho, hm⟩
    exact ⟨_, (mem_inRange_created hσ hc).mpr ⟨task, ho, hm, rfl⟩,
      taskAt_member hσ hn ho (hs _ ho hm)⟩

theorem ascending_tasksOf : Ascending order (tasksOf P src σ options) := by
  unfold tasksOf Ascending
  rw [List.pairwise_filterMap]
  refine (ascending_sort _).imp_of_mem fun {x y} hx hy hlt => ?_
  intro task ht task' ht'
  have ⟨_, ho, hm, hx⟩ := (mem_inRange_created hσ hc).mp hx
  have ⟨_, ho', hm', hy⟩ := (mem_inRange_created hσ hc).mp hy
  rw [hx, taskAt_member hσ hn ho (hs _ ho hm)] at ht
  rw [hy, taskAt_member hσ hn ho' (hs _ ho' hm')] at ht'
  cases ht
  cases ht'
  subst hx hy
  have hlt : kvIndexMember P task.record.deletedAt task <
      kvIndexMember P task'.record.deletedAt task' := hlt
  have hid : task.record.deletionID ≠ task'.record.deletionID := fun he =>
    absurd hlt (ho.eq ho' he ▸ lt_irrefl _)
  rw [kvIndexMember_eq, kvIndexMember_eq, format_append_lt_iff, List.cons_lt_cons_self,
    Bytes.append_lt_append_iff_of_free (eq_of_isPrefix (ho.parseUUID hσ) (ho'.parseUUID hσ))
      (eq_of_isPrefix (ho'.parseUUID hσ) (ho.parseUUID hσ))] at hlt
  unfold order
  rw [Prod.Lex.toLex_lt_toLex, Prod.Lex.toLex_lt_toLex, ho.source, ho'.source]
  rcases hlt with hlt | ⟨he, hlt | ⟨he', _⟩⟩
  case inl => exact .inl hlt
  case inr.inl => exact .inr ⟨he, .inr ⟨rfl, hlt⟩⟩
  case inr.inr => exact absurd he' hid

theorem listIndexedTasks_eq (hk : src.ownedKinds ≠ []) (hl : 0 < options.limit) :
    listIndexedTasks P src σ options =
    .ok ((tasksOf P src σ options).take options.limit.toNat) := by
  have hkinds : ∀ k ∈ createdKeys src options, σ.OfKind true k := by
    intro k hk
    have ⟨_, _, _, hk, _⟩ := mem_createdKeys.mp hk
    exact hk ▸ hσ.kinds _ (.created ..)
  have hvalid : validateTaskSource src = .ok () := by
    unfold validateTaskSource
    rw [if_neg (by simp [hn, hk])]
  have ⟨r, hr, _, hmem, htake⟩ := readKVTaskIndexes_eq (q := listQuery P src options) hkinds
    (by simp only [listQuery]; omega)
  have hlen : (listQuery P src options).limit.toNat = options.limit.toNat + 1 := by
    simp only [listQuery]
    omega
  have htake : r.take options.limit.toNat = (inRange σ (createdKeys src options)
      (listQuery P src options)).take options.limit.toNat := by
    rw [hlen] at htake
    have := congrArg (List.take options.limit.toNat) htake
    simpa [List.take_take] using this
  unfold listIndexedTasks
  rw [hvalid, Except.bind_ok, if_neg (by omega), hr, Except.bind_ok,
    collectTasks_eq hσ hn, htake, filterMap_take]
  · rfl
  · intro x hx
    have ⟨task, ho, hm, he⟩ := (mem_inRange_created hσ hc).mp hx
    exact ⟨task, he ▸ taskAt_member hσ hn ho (hs _ ho hm)⟩
  · intro x hx
    have ⟨task, ho, hm, he⟩ := (mem_inRange_created hσ hc).mp (hmem x hx)
    exact ⟨task, ho, hm, hs _ ho hm, he⟩

end Listed

end Source

end GizClaw.PendingDeletion

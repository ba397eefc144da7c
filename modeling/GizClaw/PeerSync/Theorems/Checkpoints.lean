import GizClaw.Lib.Except
import GizClaw.PeerSync.Server

-- What a comparison tells a client, and what a mutation does to the checkpoints of an owner.

namespace GizClaw.PeerSync

open Interleaving
open PendingDeletion (Text ascii)

section Maps

variable {β γ : Type} {d : Dict β} {k : Text}

theorem Dict.lookup_map (f : β → γ) : (d.map f).lookup k = (d.lookup k).map f := by
  ext c
  have hiff : c ∈ (d.map f).lookup k ↔ ∃ b, b ∈ d.lookup k ∧ f b = c := by
    simp only [AList.mem_lookup_iff, Dict.map, List.mem_map, Sigma.mk.injEq]
    constructor
    case mp => exact fun ⟨⟨_, b⟩, hb, rfl, hc⟩ => ⟨b, hb, eq_of_heq hc⟩
    case mpr => exact fun ⟨b, hb, hc⟩ => ⟨⟨k, b⟩, hb, rfl, heq_of_eq hc⟩
  simpa using hiff

theorem Dict.lookup_filter (keep : Text → β → Bool) :
    (d.filter keep).lookup k = (d.lookup k).filter (keep k) := by
  ext b
  have hiff : b ∈ (d.filter keep).lookup k ↔ b ∈ d.lookup k ∧ keep k b := by
    simp only [AList.mem_lookup_iff, Dict.filter, List.mem_filter]
  simpa [Option.filter_eq_some_iff] using hiff

end Maps

section Comparison

variable {P : Platform} {previous : Dict Text} {current : Snapshot} {base : Text → Option Bytes}

theorem mem_deletes : k ∈ deletes previous current ↔ k ∈ previous ∧ k ∉ current := by
  simp [deletes, AList.mem_keys]

-- Whoever has what the hashes are of gets to the current state.
theorem changes_apply (h : ∀ k, previous.lookup k = (base k).map P.hash) (k : Text) :
    (match (upserts P previous current).lookup k with
      | some value => some value
      | none => if k ∈ deletes previous current then none else base k) =
        current.lookup k := by
  rw [upserts, Dict.lookup_filter]
  cases hc : current.lookup k
  case none =>
    have hcur : k ∉ current := AList.lookup_eq_none.mp hc
    simp only [Option.filter_none, mem_deletes, hcur, not_false_eq_true, and_true]
    split
    case isTrue => rfl
    case isFalse hp =>
      have hnone := h k
      rw [AList.lookup_eq_none.mpr hp] at hnone
      exact Option.map_eq_none_iff.mp hnone.symm
  case some value =>
    have hcur : k ∈ current := AList.lookup_isSome.mp (by simp [hc])
    by_cases hsame : (previous.lookup k).getD [] = P.hash value
    case neg => simp [Option.filter, hsame]
    case pos =>
      -- The empty text is no hash, so there is one for the resource, and it has not changed.
      simp only [Option.filter, hsame, ne_eq, not_true_eq_false, decide_false, Bool.false_eq_true,
        if_false, mem_deletes, hcur, and_false]
      rw [h k] at hsame
      cases hb : base k
      case none => exact absurd (hb ▸ hsame).symm (P.hash_ne_empty value)
      case some =>
        rw [hb] at hsame
        rw [P.hash_injective hsame]

-- A reset is for any state, and a comparison for the one that the hashes are of.
theorem compare_apply (h : ∀ c, found = some c → ∀ k, c.hashes.lookup k = (view k).map P.hash) :
    (compare P found current timestamp).apply view = current.lookup := by
  funext k
  cases found
  case none =>
    have hempty : ∀ k, (∅ : Dict Text).lookup k = (none : Option Bytes).map P.hash := fun _ => rfl
    exact changes_apply hempty k
  case some c => exact changes_apply (h c rfl) k

theorem Checkpoint.lookup_of (k : Text) :
    (Checkpoint.of P current).hashes.lookup k = (current.lookup k).map P.hash :=
  Dict.lookup_map P.hash

end Comparison

section Timestamps

variable {timestamps : List Int} {now : Int}

theorem le_of_bump (h : bump before t timestamps = .ok t') : t ≤ t' ∧ ∀ p ∈ timestamps, p < t' := by
  induction timestamps generalizing before t
  case nil =>
    cases h
    exact ⟨le_refl _, fun _ hp => nomatch hp⟩
  case cons p rest hi =>
    have ⟨_, h⟩ := Except.ite_error_eq_ok.mp h
    have ⟨hle, hrest⟩ := hi h
    have hp : t ≤ t' ∧ p < t' := by
      split at hle <;> omega
    exact ⟨hp.left, List.forall_mem_cons.mpr ⟨hp.right, hrest⟩⟩

theorem kept_sublist : (kept timestamps now).Sublist timestamps :=
  List.filter_sublist.trans (List.drop_sublist _ _)

theorem kept_length_lt : (kept timestamps now).length < maxCheckpoints := by
  have hle : (kept timestamps now).length ≤ (timestamps.drop (overflow timestamps)).length :=
    List.length_filter_le _ _
  rw [List.length_drop, overflow] at hle
  unfold maxCheckpoints at *
  omega

theorem not_mem_deleted (hn : timestamps.Nodup) (h : t ∈ kept timestamps now) :
    t ∉ deleted timestamps now := by
  have ⟨hdrop, hlive⟩ := List.mem_filter.mp h
  intro hd
  rcases List.mem_append.mp hd with htake | hexpired
  · exact List.disjoint_take_drop hn (le_refl _) htake hdrop
  · have hexp := (List.mem_filter.mp hexpired).right
    simp [hexp] at hlive

theorem mem_of_mem_deleted (h : t ∈ deleted timestamps now) : t ∈ timestamps := by
  rcases List.mem_append.mp h with htake | hexpired
  · exact List.mem_of_mem_take htake
  · exact List.mem_of_mem_drop (List.mem_filter.mp hexpired).left

end Timestamps

def listed (expected : Option Head) : List Int :=
  (expected.map Head.timestamps).getD []

-- What the mutation is that a call plans.
structure Planned (P : Platform) (expected : Option Head) (now : Int) (current : Snapshot)
    (m : Save) : Prop where
  guard : m.expected = expected
  head : m.head.timestamps = kept (listed expected) now ++ [m.timestamp]
  clock : unixMilli now ≤ m.timestamp
  beyond : ∀ p ∈ listed expected, p < m.timestamp
  payload : m.payload = .of P current
  deleted : m.deleted = PeerSync.deleted (listed expected) now
  now : m.now = now
  snapshot : m.snapshot = current

theorem planned (h : plan P expected now current = .ok m) : Planned P expected now current m := by
  have ⟨t, ht, hm⟩ := Except.bind_eq_ok.mp h
  have ⟨t', hb, ht⟩ := Except.bind_eq_ok.mp ht
  have ⟨_, ht⟩ := Except.ite_error_eq_ok.mp ht
  cases ht
  cases hm
  have ⟨hclock, hbeyond⟩ := le_of_bump hb
  exact ⟨rfl, rfl, hclock, hbeyond, rfl, rfl, rfl, rfl⟩

theorem Planned.timestamp_not_deleted {now : Int} (h : Planned P expected now current m) :
    m.timestamp ∉ m.deleted := by
  intro hm
  rw [h.deleted] at hm
  exact lt_irrefl _ (h.beyond _ (mem_of_mem_deleted hm))

-- The records of an owner, after some mutations.
structure Retained (P : Platform) (issued : List Issue) (records : Records) : Prop where
  increasing : (issued.map Issue.timestamp).Pairwise (· < ·)
  near : ∀ i ∈ issued, i.timestamp < unixMilli i.deadline
  unwritten : records.head = none → issued = []
  sublist : ∀ h d, records.head = some (h, d) → h.timestamps.Sublist (issued.map Issue.timestamp)
  last : ∀ h d, records.head = some (h, d) →
    ∃ t ∈ h.timestamps, ∀ i ∈ issued, i.timestamp ≤ t
  size : ∀ h d, records.head = some (h, d) → h.timestamps.length ≤ maxCheckpoints
  stored : ∀ h d, records.head = some (h, d) → ∀ t ∈ h.timestamps,
    (records.checkpoints t).isSome
  checkpoint : ∀ t c d, records.checkpoints t = some (c, d) →
    ∃ i ∈ issued, i.timestamp = t ∧ i.deadline = d ∧ c = .of P i.snapshot

namespace Retained

variable {P : Platform} {issued : List Issue} {records : Records}

theorem init : Retained P [] ⟨none, fun _ => none⟩ where
  increasing := .nil
  near := fun _ h => nomatch h
  unwritten := fun _ => rfl
  sublist := fun _ _ h => nomatch h
  last := fun _ _ h => nomatch h
  size := fun _ _ h => nomatch h
  stored := fun _ _ h => nomatch h
  checkpoint := fun _ _ _ h => nomatch h

variable (h : Retained P issued records)
include h

-- A timestamp stands for one checkpoint for ever.
theorem eq_of_timestamp (hi : i ∈ issued) (hj : j ∈ issued)
    (ht : i.timestamp = j.timestamp) : i = j := by
  have hnodup : (issued.map Issue.timestamp).Nodup := h.increasing.imp ne_of_lt
  exact List.inj_on_of_nodup_map hnodup hi hj ht

variable {expected : Option Head} {now t : Int} {current : Snapshot} {m : Save}

-- A head that is still there lists the last timestamp. Otherwise the reading of the clock has to be
-- beyond all of them.
theorem lt_timestamp (hm : Planned P expected now current m)
    (hlive : live t records.head = expected)
    (hclear : expected = none → ∀ i ∈ issued, i.deadline ≤ now) (hi : i ∈ issued) :
    i.timestamp < m.timestamp := by
  cases expected
  case none =>
    have hnear := h.near i hi
    have hmilli : unixMilli i.deadline ≤ unixMilli now :=
      Int.ediv_le_ediv (by decide) (hclear rfl i hi)
    have hclock := hm.clock
    omega
  case some =>
    cases hrow : records.head
    case none => simp [hrow, live] at hlive
    case some row =>
      obtain ⟨head', d⟩ := row
      simp only [hrow, live, Option.ite_none_right_eq_some, Option.some.injEq] at hlive
      have ⟨last, hlast, hmax⟩ := h.last head' d hrow
      have hbeyond := hm.beyond last (hlive.right ▸ hlast)
      have hle := hmax i hi
      omega

-- The timestamps that are expected are some of those that were issued, each with its checkpoint.
theorem listed_stored (hlive : live t records.head = expected) :
    (listed expected).Sublist (issued.map Issue.timestamp) ∧
      ∀ t ∈ listed expected, (records.checkpoints t).isSome := by
  cases expected
  case none => exact ⟨List.nil_sublist _, fun _ ht => nomatch ht⟩
  case some =>
    cases hrow : records.head
    case none => simp [hrow, live] at hlive
    case some row =>
      obtain ⟨head', d⟩ := row
      simp only [hrow, live, Option.ite_none_right_eq_some, Option.some.injEq] at hlive
      obtain ⟨_, rfl⟩ := hlive
      exact ⟨h.sublist _ d hrow, h.stored _ d hrow⟩

theorem save (hm : Planned P expected now current m) (hlive : live t records.head = expected)
    (hnear : m.Near) (hclear : expected = none → ∀ i ∈ issued, i.deadline ≤ now) :
    Retained P (issued ++ [⟨m.timestamp, m.snapshot, m.deadline⟩]) (records.save m) := by
  have hlt := fun i hi => h.lt_timestamp hm hlive hclear (i := i) hi
  have ⟨hsub, hstored⟩ := h.listed_stored hlive
  have hnodup : (listed expected).Nodup := hsub.nodup (h.increasing.imp ne_of_lt)
  refine ⟨?increasing, ?near, ?unwritten, ?sublist, ?last, ?size, ?stored, ?checkpoint⟩
  case increasing =>
    rw [List.map_append, List.map_singleton, List.pairwise_append]
    refine ⟨h.increasing, List.pairwise_singleton _ _, fun a ha b hb => ?_⟩
    obtain ⟨i, hi, rfl⟩ := List.mem_map.mp ha
    obtain rfl := List.mem_singleton.mp hb
    exact hlt i hi
  case near =>
    intro i hi
    rcases List.mem_append.mp hi with hi | hi
    · exact h.near i hi
    · obtain rfl := List.mem_singleton.mp hi
      exact hnear
  case unwritten => exact fun hn => nomatch hn
  case sublist =>
    intro head d he
    cases he
    rw [hm.head, List.map_append]
    exact (kept_sublist.trans hsub).append (.refl _)
  case last =>
    intro head d he
    cases he
    refine ⟨m.timestamp, by rw [hm.head]; simp, fun i hi => ?_⟩
    rcases List.mem_append.mp hi with hi | hi
    · exact (hlt i hi).le
    · obtain rfl := List.mem_singleton.mp hi
      exact le_refl _
  case size =>
    intro head d he
    cases he
    rw [hm.head, List.length_append, List.length_singleton]
    exact kept_length_lt
  case stored =>
    intro head d he t ht
    cases he
    rw [hm.head] at ht
    rcases List.mem_append.mp ht with ht | ht
    · have hdel := hm.deleted ▸ not_mem_deleted hnodup ht
      have hold := hstored t (kept_sublist.subset ht)
      simp only [Records.save, hdel, if_false]
      split <;> simp [hold]
    · obtain rfl := List.mem_singleton.mp ht
      simp [Records.save, hm.timestamp_not_deleted]
  case checkpoint =>
    intro t c d hc
    have ⟨_, hc⟩ := Option.ite_none_left_eq_some.mp hc
    split at hc
    case isTrue ht =>
      cases hc
      exact ⟨_, List.mem_append_right _ (List.mem_singleton_self _), ht.symm, rfl,
        hm.payload.trans (hm.snapshot ▸ rfl)⟩
    case isFalse =>
      have ⟨i, hi, hrest⟩ := h.checkpoint t c d hc
      exact ⟨i, List.mem_append_left _ hi, hrest⟩

end Retained

end GizClaw.PeerSync

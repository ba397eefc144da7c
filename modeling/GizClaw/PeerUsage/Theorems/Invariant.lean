import GizClaw.PeerUsage.Recorder

-- What holds between the reports that were accepted, the buckets that are still in memory, and the
-- rows of the table.

namespace GizClaw.PeerUsage

open PendingDeletion (Text)
open Tally

section Writers

theorem mem_decimal (h : b ∈ decimal n) : 48 ≤ b := by
  unfold decimal at h
  split at h
  case isTrue => rw [List.mem_singleton.mp h]
  case isFalse =>
    obtain ⟨d, hd, hb⟩ := List.mem_map.mp h
    have hlt := Nat.digits_lt_base (by omega) (List.mem_reverse.mp hd)
    rw [← hb, Fin.le_def, Fin.val_ofNat, Nat.mod_eq_of_lt (by omega)]
    exact Nat.le_add_right 48 d

theorem ofDigits_decimal (n : Nat) :
    Nat.ofDigits 10 ((decimal n).reverse.map fun b => b.val - 48) = n := by
  unfold decimal
  split
  case isTrue h => subst h; rfl
  case isFalse =>
    rw [← List.map_reverse, List.reverse_reverse, List.map_map]
    refine Eq.trans ?_ (Nat.ofDigits_digits 10 n)
    congr 1
    refine (List.map_congr_left fun d hd => ?_).trans (List.map_id _)
    have hlt := Nat.digits_lt_base (by omega) hd
    simp only [Function.comp_apply, Fin.val_ofNat, id_eq, Nat.mod_eq_of_lt
      (show 48 + d < 256 by omega)]
    omega

theorem decimal_injective : Function.Injective decimal := by
  intro n n' h
  rw [← ofDigits_decimal n, h, ofDigits_decimal]

-- What stands behind the last dash has no dash.
theorem writerID_inj
    (h : writerID identity n = writerID identity' n') : identity = identity' ∧ n = n' := by
  have hdash : ∀ n, dash ∉ decimal n := fun n hm => absurd (mem_decimal hm) (by decide)
  have hsplit : ∀ {a a' : Text} {n n' : Nat} {c : Text}, a' = a ++ c →
      dash :: decimal n = c ++ dash :: decimal n' → a = a' ∧ decimal n = decimal n' := by
    intro a a' n n' c ha hc
    cases c
    case nil => exact ⟨by simpa using ha.symm, (List.cons.inj hc).right⟩
    case cons xs =>
      have hx := (List.cons.inj hc).right
      exact absurd (hx ▸ List.mem_append_right xs List.mem_cons_self) (hdash n)
  have key : identity = identity' ∧ decimal n = decimal n' := by
    rcases List.append_eq_append_iff.mp h with ⟨c, ha, hc⟩ | ⟨c, ha, hc⟩
    case inl => exact hsplit ha hc
    case inr => exact (hsplit ha hc).imp Eq.symm Eq.symm
  exact ⟨key.left, decimal_injective key.right⟩

end Writers

def Report.row (r : Report) : RowKey :=
  ⟨r.key, r.writer⟩

def Bucket.row (b : Bucket) : RowKey :=
  ⟨b.key, b.writer⟩

def Snapshot.row (i : Snapshot) : RowKey :=
  ⟨i.key, i.writerID⟩

-- What was reported to one writer.
def amount (reports : List Report) : RowKey → Nat :=
  tally Report.row Report.quantity reports

theorem amount_mono (h : reports <+: reports') (k : RowKey) :
    amount reports k ≤ amount reports' k :=
  tally_le_of_sublist h.sublist k

namespace State

-- What the row of one writer says.
def stored (s : State) : RowKey → Nat :=
  tally Prod.fst Prod.snd s.table

-- What was reported for one peer, model and hour.
def accepted (s : State) (key : BucketKey) : Nat :=
  tally Report.key Report.quantity s.reports key

-- The hour is inside the retention window, whatever the clocks have said so far.
def Retained (s : State) (key : BucketKey) : Prop :=
  ∀ c ∈ s.cutoffs, c ≤ key.hour

instance (s : State) (key : BucketKey) : Decidable (s.Retained key) :=
  inferInstanceAs (Decidable (∀ c ∈ s.cutoffs, c ≤ key.hour))

def buckets (s : State) (i : Nat) : List Bucket :=
  (s.recorders i).buckets

def sequence (s : State) (i : Nat) : Nat :=
  (s.recorders i).sequence

theorem buckets_setRecorder (s : State) (i : Nat) (r : Recorder) (j : Nat) :
    (s.setRecorder i r).buckets j = if j = i then r.buckets else s.buckets j := by
  unfold buckets setRecorder
  by_cases h : j = i <;> simp [h]

theorem sequence_setRecorder (s : State) (i : Nat) (r : Recorder) (j : Nat) :
    (s.setRecorder i r).sequence j = if j = i then r.sequence else s.sequence j := by
  unfold sequence setRecorder
  by_cases h : j = i <;> simp [h]

theorem sequence_setRecorder_same {s : State}
    (h : r.sequence = s.sequence i) : (s.setRecorder i r).sequence = s.sequence := by
  funext j
  rw [sequence_setRecorder]
  split
  case isTrue hj => rw [h, hj]
  case isFalse => rfl

-- The first `n` reports that the recorder accepted have been written.
structure Covered (s : State) (i n : Nat) : Prop where
  le : n ≤ s.reports.length
  stored : ∀ r ∈ s.reports.take n, r.recorder = i → s.Retained r.key →
    amount (s.reports.take n) r.row ≤ s.stored r.row

-- Whatever happens, reports are only added, and what is retained only grows.
structure Next (s s' : State) : Prop where
  reports : s.reports <+: s'.reports
  retained : ∀ key, s'.Retained key → s.Retained key
  stored : ∀ k, s'.Retained k.key → s.stored k ≤ s'.stored k

theorem Next.refl (s : State) : s.Next s where
  reports := List.prefix_rfl
  retained := fun _ h => h
  stored := fun _ _ => le_rfl

theorem Next.trans {s₁ s₂ s₃ : State} (h : s₁.Next s₂) (h' : s₂.Next s₃) : s₁.Next s₃ where
  reports := h.reports.trans h'.reports
  retained := fun k hk => h.retained k (h'.retained k hk)
  stored := fun k hk => (h.stored k (h'.retained k.key hk)).trans (h'.stored k hk)

theorem Next.take {s s' : State} (h : s.Next s') (hn : n ≤ s.reports.length) :
    s'.reports.take n = s.reports.take n := by
  have ⟨l, hl⟩ := h.reports
  rw [← hl, List.take_append_of_le_length hn]

theorem Covered.next {s s' : State} (h : s.Covered i n) (hn : s.Next s') : s'.Covered i n where
  le := h.le.trans hn.reports.length_le
  stored := by
    rw [hn.take h.le]
    exact fun r hr hi hk => (h.stored r hr hi (hn.retained _ hk)).trans (hn.stored _ hk)

-- A writer belongs to one recorder, which has handed it out.
def Issued (identities : Nat → Text) (s : State) (i : Nat) (writer : Text) : Prop :=
  ∃ n ≤ s.sequence i, writer = writerID (identities i) n

structure Inv (identities : Nat → Text) (s : State) : Prop where
  rows : (s.table.map Prod.fst).Nodup
  stored : ∀ k, s.stored k ≤ amount s.reports k
  keys : ∀ i, ((s.buckets i).map Bucket.key).Nodup
  writers : ∀ i, ∀ b ∈ s.buckets i, s.Issued identities i b.writer
  reported : ∀ r ∈ s.reports, s.Issued identities r.recorder r.writer
  quantity : ∀ i, ∀ b ∈ s.buckets i, b.quantity = amount s.reports b.row
  acknowledged : ∀ i, ∀ b ∈ s.buckets i, s.Retained b.key → b.acknowledged ≤ s.stored b.row
  -- A report is in memory, or all of its epoch has been written.
  live : ∀ r ∈ s.reports, s.Retained r.key →
    (∃ b ∈ s.buckets r.recorder, b.row = r.row) ∨ amount s.reports r.row ≤ s.stored r.row
  flushed : ∀ i, s.Covered i (s.flushed i)

section Keeps

variable {identities : Nat → Text} {s s' : State} {i : Nat}

theorem inv_init : init.Inv identities where
  rows := List.nodup_nil
  stored := fun _ => le_rfl
  keys := fun _ => List.nodup_nil
  writers := fun _ _ h => nomatch h
  reported := fun _ h => nomatch h
  quantity := fun _ _ h => nomatch h
  acknowledged := fun _ _ h => nomatch h
  live := fun _ h => nomatch h
  flushed := fun _ => ⟨le_rfl, fun _ h => nomatch h⟩

-- A writer is never shared.
theorem Issued.recorder_eq (hid : Function.Injective identities) (hi : s.Issued identities i writer)
    (hj : s.Issued identities j writer) : i = j := by
  have ⟨n, _, hn⟩ := hi
  have ⟨m, _, hm⟩ := hj
  exact hid (writerID_inj (hn.symm.trans hm)).left

variable (h : s.Inv identities)
include h

-- Rows may grow as long as they say no more than was reported.
theorem Inv.setTable (hb : s'.buckets = s.buckets) (hq : s'.sequence = s.sequence)
    (hr : s'.reports = s.reports) (hf : s'.flushed = s.flushed)
    (hk : ∀ key, s'.Retained key → s.Retained key) (hrows : (s'.table.map Prod.fst).Nodup)
    (hle : ∀ k, s'.stored k ≤ amount s.reports k)
    (hge : ∀ k, s'.Retained k.key → s.stored k ≤ s'.stored k) : s'.Inv identities ∧ s.Next s' := by
  have hn : s.Next s' := ⟨hr ▸ List.prefix_rfl, hk, hge⟩
  have hi : ∀ i w, s'.Issued identities i w ↔ s.Issued identities i w := by
    intro i w
    simp only [Issued, hq]
  refine ⟨?inv, hn⟩
  constructor
  case rows => exact hrows
  case stored => rwa [hr]
  case keys => rw [hb]; exact h.keys
  case writers => rw [hb]; exact fun i b hm => (hi _ _).mpr (h.writers i b hm)
  case reported => rw [hr]; exact fun r hm => (hi _ _).mpr (h.reported r hm)
  case quantity => rw [hb, hr]; exact h.quantity
  case acknowledged =>
    rw [hb]
    exact fun i b hm hret => (h.acknowledged i b hm (hk _ hret)).trans (hge _ hret)
  case live =>
    rw [hb, hr]
    exact fun r hm hret => (h.live r hm (hk _ hret)).imp_right fun hl => hl.trans (hge _ hret)
  case flushed => rw [hf]; exact fun i => (h.flushed i).next hn

-- Buckets may be acknowledged up to what their rows say, and may go when nothing of them is missing
-- in the table.
theorem Inv.setBuckets (ht : s'.table = s.table) (hq : s'.sequence = s.sequence)
    (hr : s'.reports = s.reports) (hf : s'.flushed = s.flushed)
    (hk : ∀ key, s'.Retained key → s.Retained key)
    (hkeys : ∀ i, ((s'.buckets i).map Bucket.key).Nodup)
    (hold : ∀ i, ∀ b ∈ s'.buckets i, ∃ b₀ ∈ s.buckets i, b₀.row = b.row ∧ b₀.quantity = b.quantity)
    (hack : ∀ i, ∀ b ∈ s'.buckets i, s'.Retained b.key → b.acknowledged ≤ s.stored b.row)
    (hgone : ∀ i, ∀ b ∈ s.buckets i, s'.Retained b.key →
      (∃ b' ∈ s'.buckets i, b'.row = b.row) ∨ amount s.reports b.row ≤ s.stored b.row) :
    s'.Inv identities ∧ s.Next s' := by
  have hs : s'.stored = s.stored := by unfold State.stored; rw [ht]
  have hn : s.Next s' := ⟨hr ▸ List.prefix_rfl, hk, fun _ _ => (congrFun hs _).ge⟩
  have hi : ∀ i w, s'.Issued identities i w ↔ s.Issued identities i w := by
    intro i w
    simp only [Issued, hq]
  refine ⟨?inv, hn⟩
  constructor
  case rows => rw [ht]; exact h.rows
  case stored => rw [hr, hs]; exact h.stored
  case keys => exact hkeys
  case reported => rw [hr]; exact fun r hm => (hi _ _).mpr (h.reported r hm)
  case acknowledged => rw [hs]; exact hack
  case flushed => rw [hf]; exact fun i => (h.flushed i).next hn
  case writers =>
    intro i b hm
    have ⟨b₀, hm₀, hrow, _⟩ := hold i b hm
    have hw : b₀.writer = b.writer := congrArg RowKey.writer hrow
    rw [hi, ← hw]
    exact h.writers i b₀ hm₀
  case quantity =>
    intro i b hm
    have ⟨b₀, hm₀, hrow, hquantity⟩ := hold i b hm
    rw [← hquantity, h.quantity i b₀ hm₀, hrow, hr]
  case live =>
    rw [hr, hs]
    intro r hm hret
    rcases h.live r hm (hk _ hret) with ⟨b, hb, hrow⟩ | hle
    case inr => exact .inr hle
    case inl =>
      have hkey : b.key = r.key := congrArg RowKey.key hrow
      rw [← hrow]
      exact hgone _ b hb (hkey ▸ hret)

theorem snapshot_keeps (i : Nat) (c : Time) :
    (s.snapshot i c).snd.Inv identities ∧ s.Next (s.snapshot i c).snd := by
  have hb : ∀ j, (s.snapshot i c).snd.buckets j =
      if j = i then (s.buckets i).filter (fun b => ¬b.key.hour < c) else s.buckets j :=
    s.buckets_setRecorder i _
  have hsub : ∀ j, ((s.snapshot i c).snd.buckets j).Sublist (s.buckets j) := by
    intro j
    rw [hb]
    split
    case isTrue hj => exact hj ▸ List.filter_sublist
    case isFalse => exact List.Sublist.refl _
  have hk : ∀ key, (s.snapshot i c).snd.Retained key → s.Retained key :=
    fun _ hret c' hc' => hret c' (List.mem_cons_of_mem _ hc')
  have hq : (s.snapshot i c).snd.sequence = s.sequence :=
    sequence_setRecorder_same rfl
  refine h.setBuckets rfl hq rfl rfl hk ?keys ?old ?ack ?gone
  case keys => exact fun j => ((hsub j).map _).nodup (h.keys j)
  case old => exact fun j b hm => ⟨b, (hsub j).subset hm, rfl, rfl⟩
  case ack => exact fun j b hm hret => h.acknowledged j b ((hsub j).subset hm) (hk _ hret)
  case gone =>
    intro j b hm hret
    refine .inl ⟨b, ?_, rfl⟩
    rw [hb]
    split
    case isFalse => exact hm
    case isTrue hj =>
      subst hj
      simpa [hm] using hret c List.mem_cons_self

-- What a snapshot leaves out needs no writing.
theorem snapshot_items (i : Nat) (c : Time) (hb : b ∈ s.buckets i)
    (hret : (s.snapshot i c).snd.Retained b.key) :
    amount s.reports b.row ≤ s.stored b.row ∨ b.snapshot ∈ (s.snapshot i c).fst := by
  by_cases hq : b.quantity = b.acknowledged
  case pos =>
    rw [← h.quantity i b hb, hq]
    exact .inl (h.acknowledged i b hb fun c' hc' => hret c' (List.mem_cons_of_mem _ hc'))
  case neg =>
    refine .inr (List.mem_map_of_mem (List.mem_filter.mpr ⟨List.mem_filter.mpr ⟨hb, ?_⟩, ?_⟩))
    case _ => simpa using hret c List.mem_cons_self
    case _ => simpa using hq

theorem quantity_of_mem_snapshot
    (hm : item ∈ (s.snapshot i c).fst) : item.quantity = amount s.reports item.row := by
  have ⟨b, hb, he⟩ := List.mem_map.mp hm
  rw [← he]
  exact h.quantity i b (List.mem_filter.mp (List.mem_filter.mp hb).left).left

end Keeps

end State

section Buckets

variable (items : List Snapshot) (b : Bucket)

theorem foldl_acknowledge_row : (items.foldl Bucket.acknowledge b).row = b.row := by
  induction items generalizing b
  case nil => rfl
  case cons hi =>
    rw [List.foldl_cons, hi, Bucket.acknowledge]
    split <;> rfl

theorem foldl_acknowledge_quantity : (items.foldl Bucket.acknowledge b).quantity = b.quantity := by
  induction items generalizing b
  case nil => rfl
  case cons hi =>
    rw [List.foldl_cons, hi, Bucket.acknowledge]
    split <;> rfl

variable {items b}

theorem foldl_acknowledge_le (hb : b.acknowledged ≤ n)
    (hi : ∀ item ∈ items, item.row = b.row → item.quantity ≤ n) :
    (items.foldl Bucket.acknowledge b).acknowledged ≤ n := by
  induction items generalizing b
  case nil => exact hb
  case cons item items ih =>
    simp only [List.mem_cons, forall_eq_or_imp] at hi
    have hrow : (b.acknowledge item).row = b.row := foldl_acknowledge_row [item] b
    refine ih ?_ (hrow ▸ hi.right)
    unfold Bucket.acknowledge
    split
    case isFalse => exact hb
    case isTrue hk =>
      exact max_le hb (hi.left (RowKey.mk.injEq .. ▸ ⟨hk.left.symm, hk.right.symm⟩))

end Buckets

namespace Table

variable {table : Table} {items : List Snapshot} {dialect : Dialect} {c : Time} {k : RowKey}

theorem lt_dayEnd (t : Int) : t < t - t % day + day := by
  have := Int.emod_lt_of_pos t (show 0 < day by decide)
  omega

theorem maintain_stored (h : c ≤ k.key.hour) :
    tally Prod.fst Prod.snd (table.maintain dialect c) k = tally Prod.fst Prod.snd table k := by
  unfold tally maintain
  rw [List.filter_filter]
  congr 2
  refine List.filter_congr fun row _ => ?_
  by_cases hk : row.fst = k
  case neg => simp [hk]
  case pos =>
    have hx : dialect.expired c k.key.hour = false := by
      cases dialect
      case sqlite => simpa [Dialect.expired] using h
      case postgreSQL => exact decide_eq_false (not_le.mpr (h.trans_lt (lt_dayEnd _)))
    simp [hk, hx]

theorem maintain_sublist : (table.maintain dialect c).Sublist table :=
  List.filter_sublist

variable (h : (table.map Prod.fst).Nodup)
include h

theorem tally_put (item : Snapshot) (k : RowKey) :
    tally Prod.fst Prod.snd (table.put item) k =
      if k = item.row then max (tally Prod.fst Prod.snd table item.row) item.quantity
      else tally Prod.fst Prod.snd table k :=
  tally_raise h k

theorem nodup_put (item : Snapshot) : ((table.put item).map Prod.fst).Nodup :=
  nodup_raise h

theorem nodup_putAll : ((items.foldl put table).map Prod.fst).Nodup := by
  induction items generalizing table
  case nil => exact h
  case cons item items hi => exact hi (nodup_put h item)

-- Each item raises its own row, and no other.
theorem le_putAll :
    tally Prod.fst Prod.snd table k ≤ tally Prod.fst Prod.snd (items.foldl put table) k := by
  induction items generalizing table
  case nil => exact le_rfl
  case cons item items hi =>
    refine le_trans ?_ (hi (nodup_put h item))
    rw [tally_put h]
    split
    case isTrue hk => exact hk ▸ le_max_left _ _
    case isFalse => exact le_rfl

theorem quantity_le_putAll (hm : item ∈ items) :
    item.quantity ≤ tally Prod.fst Prod.snd (items.foldl put table) item.row := by
  induction items generalizing table
  case nil => contradiction
  case cons item' items hi =>
    rcases List.mem_cons.mp hm with rfl | hm
    case inr => exact hi (nodup_put h item') hm
    case inl =>
      rw [List.foldl_cons]
      refine le_trans ?_ (le_putAll (nodup_put h item))
      rw [tally_put h, if_pos rfl]
      exact le_max_right _ _

theorem putAll_le (ht : tally Prod.fst Prod.snd table k ≤ n)
    (hi : ∀ item ∈ items, item.row = k → item.quantity ≤ n) :
    tally Prod.fst Prod.snd (items.foldl put table) k ≤ n := by
  induction items generalizing table
  case nil => exact ht
  case cons item items ih =>
    simp only [List.mem_cons, forall_eq_or_imp] at hi
    refine ih (nodup_put h item) ?_ hi.right
    rw [tally_put h]
    split
    case isTrue hk => exact max_le (hk ▸ ht) (hi.left hk.symm)
    case isFalse => exact ht

end Table

namespace State

section Keeps

variable {identities : Nat → Text} {s s' : State} {i : Nat} {items : List Snapshot}

section

variable (h : s.Inv identities)
include h

theorem acknowledge_keeps (i : Nat) (hour : Time)
    (hi : ∀ item ∈ items, s.Retained item.key → item.quantity ≤ s.stored item.row) :
    (s.acknowledge i items hour).Inv identities ∧ s.Next (s.acknowledge i items hour) := by
  let f := fun b => items.foldl Bucket.acknowledge b
  have hb : ∀ j, (s.acknowledge i items hour).buckets j =
      if j = i then ((s.buckets i).map f).filter
        fun b => ¬(b.key.hour < hour ∧ b.quantity = b.acknowledged)
      else s.buckets j :=
    s.buckets_setRecorder i _
  have hkey : ∀ b, (f b).key = b.key := fun b => congrArg RowKey.key (foldl_acknowledge_row items b)
  have hack : ∀ b ∈ s.buckets i, s.Retained b.key → (f b).acknowledged ≤ s.stored b.row := by
    intro b hm hret
    refine foldl_acknowledge_le (h.acknowledged i b hm hret) fun item hitem hrow => ?_
    have hk : item.key = b.key := congrArg RowKey.key hrow
    exact hrow ▸ hi item hitem (hk ▸ hret)
  have hq : (s.acknowledge i items hour).sequence = s.sequence :=
    sequence_setRecorder_same rfl
  -- Every bucket that is left comes from one that was there.
  have hold : ∀ j, ∀ b ∈ (s.acknowledge i items hour).buckets j,
      b ∈ s.buckets j ∨ j = i ∧ ∃ b₀ ∈ s.buckets i, b = f b₀ := by
    intro j b hm
    rw [hb] at hm
    split at hm
    case isFalse => exact .inl hm
    case isTrue hj =>
      have ⟨b₀, hm₀, he⟩ := List.mem_map.mp (List.mem_filter.mp hm).left
      exact .inr ⟨hj, b₀, hm₀, he.symm⟩
  refine h.setBuckets rfl hq rfl rfl (fun _ hret => hret) ?keys ?old ?ack ?gone
  case keys =>
    intro j
    rw [hb]
    split
    case isFalse => exact h.keys j
    case isTrue =>
      refine (List.filter_sublist.map _).nodup ?_
      rw [List.map_map, show Bucket.key ∘ f = Bucket.key from funext hkey]
      exact h.keys i
  case old =>
    intro j b hm
    rcases hold j b hm with hm | ⟨rfl, b₀, hm₀, rfl⟩
    case inl => exact ⟨b, hm, rfl, rfl⟩
    case inr =>
      exact ⟨b₀, hm₀, (foldl_acknowledge_row items b₀).symm,
        (foldl_acknowledge_quantity items b₀).symm⟩
  case ack =>
    intro j b hm hret
    rcases hold j b hm with hm | ⟨rfl, b₀, hm₀, rfl⟩
    case inl => exact h.acknowledged j b hm hret
    case inr =>
      rw [foldl_acknowledge_row]
      exact hack b₀ hm₀ (hkey b₀ ▸ hret)
  case gone =>
    intro j b hm hret
    by_cases hj : j = i
    case neg => exact .inl ⟨b, by rwa [hb, if_neg hj], rfl⟩
    case pos =>
      subst hj
      by_cases hd : (f b).key.hour < hour ∧ (f b).quantity = (f b).acknowledged
      case neg =>
        refine .inl ⟨f b, ?_, foldl_acknowledge_row items b⟩
        rw [hb, if_pos rfl]
        exact List.mem_filter.mpr ⟨List.mem_map_of_mem hm, decide_eq_true hd⟩
      case pos =>
        -- A finished bucket has been written in full.
        rw [← h.quantity j b hm, ← foldl_acknowledge_quantity items b, hd.right]
        exact .inr (hack b hm hret)

theorem maintain_keeps (dialect : Dialect) (c : Time) :
    (s.maintain dialect c).Inv identities ∧ s.Next (s.maintain dialect c) := by
  refine h.setTable rfl rfl rfl rfl (fun _ hret c' hc' => hret c' (List.mem_cons_of_mem _ hc'))
    ?rows ?le ?ge
  case rows => exact (Table.maintain_sublist.map _).nodup h.rows
  case le => exact fun k => (tally_le_of_sublist Table.maintain_sublist k).trans (h.stored k)
  case ge => exact fun k hret => (Table.maintain_stored (hret c List.mem_cons_self)).ge

theorem write_keeps (dialect : Dialect) (c : Time)
    (hi : ∀ item ∈ items, item.quantity ≤ amount s.reports item.row) :
    (s.write dialect c items).Inv identities ∧ s.Next (s.write dialect c items) := by
  have hrows : ((s.table.maintain dialect c).map Prod.fst).Nodup :=
    (Table.maintain_sublist.map _).nodup h.rows
  refine h.setTable rfl rfl rfl rfl (fun _ hret c' hc' => hret c' (List.mem_cons_of_mem _ hc'))
    ?rows ?le ?ge
  case rows => exact Table.nodup_putAll hrows
  case le =>
    intro k
    refine Table.putAll_le hrows ?_ fun item hm hrow => hrow ▸ hi item hm
    exact (tally_le_of_sublist Table.maintain_sublist k).trans (h.stored k)
  case ge =>
    intro k hret
    exact (Table.maintain_stored (hret c List.mem_cons_self)).ge.trans (Table.le_putAll hrows)

theorem write_stored (dialect : Dialect) (c : Time)
    (hm : item ∈ items) : item.quantity ≤ (s.write dialect c items).stored item.row :=
  Table.quantity_le_putAll ((Table.maintain_sublist.map _).nodup h.rows) hm

-- Flags do not matter.
theorem setRecorder_keeps {r : Recorder} (hb : r.buckets = s.buckets i)
    (hq : r.sequence = s.sequence i) :
    (s.setRecorder i r).Inv identities ∧ s.Next (s.setRecorder i r) := by
  have hb : (s.setRecorder i r).buckets = s.buckets := by
    funext j
    rw [buckets_setRecorder]
    split
    case isTrue hj => rw [hb, hj]
    case isFalse => rfl
  exact h.setTable hb (sequence_setRecorder_same hq) rfl rfl (fun _ hret => hret) h.rows h.stored
    fun _ _ => le_rfl

theorem leave_keeps {start : Option Nat} (hc : ∀ n ∈ start, s.Covered i n) :
    (s.leave i start).Inv identities ∧ s.Next (s.leave i start) := by
  have ⟨hinv, hnext⟩ : (s.setGate i false).Inv identities ∧ s.Next (s.setGate i false) :=
    setRecorder_keeps h rfl rfl
  cases start
  case none => exact ⟨hinv, hnext⟩
  case some n =>
    refine ⟨{ hinv with flushed := fun j => ?_ }, hnext.reports, hnext.retained, hnext.stored⟩
    have hcov : (s.setGate i false).Covered j (Function.update s.flushed i n j) := by
      by_cases hj : j = i
      case pos => subst hj; rw [Function.update_self]; exact (hc n rfl).next hnext
      case neg => rw [Function.update_of_ne hj]; exact hinv.flushed j
    exact ⟨hcov.le, hcov.stored⟩

end

variable (hid : Function.Injective identities) (h : s.Inv identities)
include hid h

-- A new bucket starts with a writer that nothing was reported to.
theorem bucket_keeps (i : Nat) (key : BucketKey) :
    let p := (s.recorders i).bucket (identities i) key
    (s.setRecorder i p.fst).Inv identities ∧ s.Next (s.setRecorder i p.fst) ∧
      p.snd ∈ p.fst.buckets ∧ p.snd.key = key := by
  unfold Recorder.bucket
  split
  case h_1 hf =>
    have ⟨hinv, hnext⟩ := setRecorder_keeps (i := i) h rfl rfl
    exact ⟨hinv, hnext, List.mem_of_find?_eq_some hf, by simpa using List.find?_some hf⟩
  case h_2 hf =>
    have hnext : ∀ r, s.Next (s.setRecorder i r) :=
      fun _ => ⟨List.prefix_rfl, fun _ hret => hret, fun _ _ => le_rfl⟩
    refine ⟨?inv, hnext _, by simp, rfl⟩
    let b : Bucket := ⟨key, writerID (identities i) (s.sequence i + 1), 0, 0⟩
    let r : Recorder := { s.recorders i with
      sequence := s.sequence i + 1, buckets := s.buckets i ++ [b] }
    have hb : ∀ {j c}, c ∈ (s.setRecorder i r).buckets j → c ∈ s.buckets j ∨ j = i ∧ c = b := by
      intro j c hc
      rw [buckets_setRecorder] at hc
      split at hc
      case isFalse => exact .inl hc
      case isTrue hj =>
        subst hj
        simpa [r] using hc
    have hold : ∀ {j c}, c ∈ s.buckets j → c ∈ (s.setRecorder i r).buckets j := by
      intro j c hc
      rw [buckets_setRecorder]
      split
      case isFalse => exact hc
      case isTrue hj => exact List.mem_append_left _ (hj ▸ hc)
    have hissued : ∀ {j w}, s.Issued identities j w →
        (s.setRecorder i r).Issued identities j w := by
      rintro j w ⟨n, hn, hw⟩
      refine ⟨n, hn.trans ?_, hw⟩
      rw [sequence_setRecorder]
      split
      case isFalse => exact le_rfl
      case isTrue hj => exact hj ▸ Nat.le_succ _
    have hnone : amount s.reports b.row = 0 := by
      refine tally_eq_zero fun rep hrep hrow => ?_
      have ⟨n, hn, hw⟩ := h.reported rep hrep
      have ⟨hi, hseq⟩ := writerID_inj (hw.symm.trans (congrArg RowKey.writer hrow))
      rw [hid hi] at hn
      omega
    have hfresh : ∀ c ∈ s.buckets i, c.key ≠ key :=
      fun c hc => by simpa using List.find?_eq_none.mp hf c hc
    constructor
    case rows => exact h.rows
    case stored => exact h.stored
    case reported => exact fun rep hrep => hissued (h.reported rep hrep)
    case flushed => exact fun j => (h.flushed j).next (hnext r)
    case keys =>
      intro j
      rw [buckets_setRecorder]
      split
      case isFalse => exact h.keys j
      case isTrue =>
        rw [List.map_append, List.nodup_append]
        refine ⟨h.keys i, List.nodup_singleton _, fun a ha c hc => ?_⟩
        have ⟨c₀, hm, hk⟩ := List.mem_map.mp ha
        rw [← hk, List.mem_singleton.mp hc]
        exact hfresh c₀ hm
    case writers =>
      intro j c hc
      rcases hb hc with hc | ⟨rfl, rfl⟩
      case inl => exact hissued (h.writers j c hc)
      case inr =>
        have hq : (s.setRecorder j r).sequence j = s.sequence j + 1 :=
          (s.sequence_setRecorder j r j).trans (if_pos rfl)
        exact ⟨s.sequence j + 1, hq.ge, rfl⟩
    case quantity =>
      intro j c hc
      rcases hb hc with hc | ⟨rfl, rfl⟩
      case inl => exact h.quantity j c hc
      case inr => exact hnone.symm
    case acknowledged =>
      intro j c hc hret
      rcases hb hc with hc | ⟨rfl, rfl⟩
      case inl => exact h.acknowledged j c hc hret
      case inr => exact Nat.zero_le _
    case live =>
      intro rep hrep hret
      rcases h.live rep hrep hret with ⟨c, hc, hrow⟩ | hle
      case inl => exact .inl ⟨c, hold hc, hrow⟩
      case inr => exact .inr hle

theorem add_keeps {b : Bucket} (hb : b ∈ s.buckets i) (total : Nat) :
    let s' := { s.setRecorder i { s.recorders i with buckets := (s.buckets i).map fun c =>
        if c.key = b.key then { c with quantity := c.quantity + total } else c } with
      reports := s.reports ++ [⟨i, b.key, b.writer, total⟩] }
    s'.Inv identities ∧ s.Next s' := by
  intro s'
  let f : Bucket → Bucket := fun c =>
    if c.key = b.key then { c with quantity := c.quantity + total } else c
  have hf : ∀ c, (f c).row = c.row ∧ (f c).acknowledged = c.acknowledged := by
    intro c
    unfold f
    split <;> exact ⟨rfl, rfl⟩
  have hbuckets : ∀ j, s'.buckets j = if j = i then (s.buckets i).map f else s.buckets j :=
    s.buckets_setRecorder i _
  -- Every bucket comes from one with the same row.
  have hold : ∀ {j c}, c ∈ s'.buckets j → ∃ c₀ ∈ s.buckets j, c.row = c₀.row ∧
      c.acknowledged = c₀.acknowledged ∧ c.quantity = (if j = i then f c₀ else c₀).quantity := by
    intro j c hc
    rw [hbuckets] at hc
    split at hc
    case isFalse hj => exact ⟨c, hc, rfl, rfl, by rw [if_neg hj]⟩
    case isTrue hj =>
      have ⟨c₀, hm, he⟩ := List.mem_map.mp hc
      exact ⟨c₀, hj ▸ hm, he ▸ (hf c₀).left, he ▸ (hf c₀).right, by rw [if_pos hj, he]⟩
  have hnew : ∀ {j c}, c ∈ s.buckets j → ∃ c' ∈ s'.buckets j, c'.row = c.row := by
    intro j c hc
    rw [hbuckets]
    split
    case isFalse => exact ⟨c, hc, rfl⟩
    case isTrue hj => exact ⟨f c, List.mem_map_of_mem (hj ▸ hc), (hf c).left⟩
  have hseq : s'.sequence = s.sequence :=
    sequence_setRecorder_same rfl
  have hissued : ∀ j w, s'.Issued identities j w ↔ s.Issued identities j w := by
    intro j w
    simp only [Issued, hseq]
  have hamount : ∀ k, amount s'.reports k = amount s.reports k +
      if b.row = k then total else 0 := by
    intro k
    refine (tally_append _ _ k).trans (congrArg _ ?_)
    exact (tally_cons _ _ k).trans (Nat.add_zero _)
  have hn : s.Next s' := ⟨List.prefix_append _ _, fun _ hret => hret, fun _ _ => le_rfl⟩
  refine ⟨?inv, hn⟩
  constructor
  case rows => exact h.rows
  case stored => exact fun k => (h.stored k).trans (amount_mono hn.reports k)
  case flushed => exact fun j => (h.flushed j).next hn
  case keys =>
    intro j
    rw [hbuckets]
    split
    case isFalse => exact h.keys j
    case isTrue =>
      rw [List.map_map, show Bucket.key ∘ f = Bucket.key from
        funext fun c => congrArg RowKey.key (hf c).left]
      exact h.keys i
  case writers =>
    intro j c hc
    have ⟨c₀, hm, hrow, _⟩ := hold hc
    have hw : c.writer = c₀.writer := congrArg RowKey.writer hrow
    rw [hissued, hw]
    exact h.writers j c₀ hm
  case reported =>
    intro rep hrep
    rw [hissued]
    rcases List.mem_append.mp hrep with hrep | hrep
    case inl => exact h.reported rep hrep
    case inr => rw [List.mem_singleton.mp hrep]; exact h.writers i b hb
  case acknowledged =>
    intro j c hc hret
    have ⟨c₀, hm, hrow, hack, _⟩ := hold hc
    have hkey : c.key = c₀.key := congrArg RowKey.key hrow
    rw [hrow, hack]
    exact h.acknowledged j c₀ hm (hkey ▸ hret)
  case quantity =>
    intro j c hc
    have ⟨c₀, hm, hrow, _, hq⟩ := hold hc
    rw [hq, hrow, hamount, ← h.quantity j c₀ hm]
    by_cases hj : j = i
    case neg =>
      -- Another recorder has other writers.
      have hne : b.row ≠ c₀.row := by
        intro he
        have hw : b.writer = c₀.writer := congrArg RowKey.writer he
        exact hj ((h.writers j c₀ hm).recorder_eq hid (hw ▸ h.writers i b hb))
      rw [if_neg hj, if_neg hne, Nat.add_zero]
    case pos =>
      subst hj
      by_cases hk : c₀.key = b.key
      case pos =>
        obtain rfl := List.inj_on_of_nodup_map (h.keys j) hm hb hk
        simp [f]
      case neg =>
        have hne : b.row ≠ c₀.row := fun he => hk (congrArg RowKey.key he).symm
        simp [f, hk, hne]
  case live =>
    intro rep hrep hret
    by_cases hrow : rep.row = b.row
    case pos =>
      have hi : rep.recorder = i := by
        rcases List.mem_append.mp hrep with hrep | hrep
        case inr => rw [List.mem_singleton.mp hrep]
        case inl =>
          have hw : rep.writer = b.writer := congrArg RowKey.writer hrow
          exact (h.reported rep hrep).recorder_eq hid (hw ▸ h.writers i b hb)
      have ⟨c, hc, he⟩ := hnew hb
      exact .inl ⟨c, hi ▸ hc, he.trans hrow.symm⟩
    case neg =>
      have hrep : rep ∈ s.reports := by
        rcases List.mem_append.mp hrep with hrep | hrep
        case inl => exact hrep
        case inr => rw [List.mem_singleton.mp hrep] at hrow; exact absurd rfl hrow
      rcases h.live rep hrep hret with ⟨c, hc, he⟩ | hle
      case inl =>
        have ⟨c', hc', he'⟩ := hnew hc
        exact .inl ⟨c', hc', he'.trans he⟩
      case inr =>
        rw [hamount, if_neg (Ne.symm hrow), Nat.add_zero]
        exact .inr hle

theorem record_keeps (i : Nat) (key : BucketKey) (total : Nat) :
    (s.record (identities i) i key total).snd.Inv identities ∧
      s.Next (s.record (identities i) i key total).snd := by
  unfold record Recorder.record
  by_cases hc : (s.recorders i).closed
  case pos => simpa only [hc, ↓reduceIte] using setRecorder_keeps h rfl rfl
  case neg =>
    simp only [hc, Bool.false_eq_true, ↓reduceIte]
    have ⟨hinv, hnext, hm, hk⟩ := bucket_keeps hid h i key
    generalize (s.recorders i).bucket (identities i) key = p at hinv hnext hm hk
    obtain ⟨r, b⟩ := p
    by_cases hover : maxInt64 < b.quantity + total
    case pos => simpa only [hover, ↓reduceIte] using ⟨hinv, hnext⟩
    case neg =>
      simp only [hover, ↓reduceIte]
      subst hk
      have hb : b ∈ (s.setRecorder i r).buckets i := by
        rwa [buckets_setRecorder, if_pos rfl]
      have ⟨hinv, hnext'⟩ := add_keeps hid hinv hb total
      have he : ∀ r', (s.setRecorder i r).setRecorder i r' = s.setRecorder i r' := by
        intro r'
        simp [setRecorder]
      have hr : (s.setRecorder i r).recorders i = r := Function.update_self ..
      simp only [he, hr, State.buckets] at hinv hnext'
      exact ⟨hinv, hnext.trans hnext'⟩

end Keeps

end State

end GizClaw.PeerUsage

import GizClaw.PeerUsage.Theorems.Invariant

-- Whatever the recorders, the clocks and the database do, each report counts once.

namespace GizClaw.PeerUsage

open Interleaving
open PendingDeletion (Text ascii)
open Tally

-- What a snapshot has to get into the table so that the first `start` reports are there.
structure State.Pending (s : State) (i start : Nat) (items : List Snapshot) : Prop where
  le : start ≤ s.reports.length
  quantity : ∀ item ∈ items, item.quantity ≤ amount s.reports item.row
  missing : ∀ r ∈ s.reports.take start, r.recorder = i → s.Retained r.key →
    amount (s.reports.take start) r.row ≤ s.stored r.row ∨
      ∃ item ∈ items, item.row = r.row ∧ amount (s.reports.take start) r.row ≤ item.quantity

def State.Written (s : State) (items : List Snapshot) : Prop :=
  ∀ item ∈ items, s.Retained item.key → item.quantity ≤ s.stored item.row

theorem stable_length (n : Nat) : Stable State.Next fun s => n ≤ s.reports.length :=
  ⟨fun h hn => h.trans hn.reports.length_le⟩

theorem stable_pending (i start : Nat) (items : List Snapshot) :
    Stable State.Next fun s => s.Pending i start items := by
  refine ⟨fun {s s'} h hn => ⟨h.le.trans hn.reports.length_le, ?quantity, ?missing⟩⟩
  case quantity => exact fun item hm => (h.quantity item hm).trans (amount_mono hn.reports _)
  case missing =>
    rw [hn.take h.le]
    intro r hr hi hret
    exact (h.missing r hr hi (hn.retained _ hret)).imp_left fun hle => hle.trans (hn.stored _ hret)

theorem stable_written (items : List Snapshot) : Stable State.Next fun s => s.Written items :=
  ⟨fun h hn item hm hret => (h item hm (hn.retained _ hret)).trans (hn.stored _ hret)⟩

theorem State.Pending.covered {s : State} (h : s.Pending i start items)
    (hw : s.Written items) : s.Covered i start where
  le := h.le
  stored := by
    intro r hr hi hret
    rcases h.missing r hr hi hret with hle | ⟨item, hm, hrow, hle⟩
    case inl => exact hle
    case inr =>
      have hkey : item.key = r.key := congrArg RowKey.key hrow
      exact hle.trans (hrow ▸ hw item hm (hkey ▸ hret))

section Calls

variable {identities : Nat → Text} {dialect : Dialect} {s : State}

abbrev Keeps (identities : Nat → Text) (dialect : Dialect) {α : Type} (Q : State → α → Prop)
    (s : State) (x : Call α) : Prop :=
  SafeOk (Does identities dialect) (State.Inv identities) State.Next Q s x

theorem keeps_act
    (h : ∀ s₁, s.Next s₁ → s₁.Inv identities → ∀ r s₂, Does identities dialect a s₁ r s₂ →
      (s₂.Inv identities ∧ s₁.Next s₂) ∧ Q s₂ r) : Keeps identities dialect Q s (act a) := by
  refine .act fun s₁ hn hv r s₂ hd => ?_
  have ⟨⟨hinv, hnext⟩, hq⟩ := h s₁ hn hv r s₂ hd
  exact ⟨hinv, hnext, SafeOk.pure hq⟩

theorem keeps_now : Keeps identities dialect Any s (act .now) := by
  refine keeps_act fun s₁ _ hv _ s₂ hd => ⟨?_, trivial⟩
  obtain rfl : s₂ = s₁ := hd
  exact ⟨hv, .refl s₂⟩

theorem keeps_commits (h : Commits s₁ s₂ r s₃) (hv : s₁.Inv identities)
    (h₂ : s₂.Inv identities ∧ s₁.Next s₂) :
    (s₃.Inv identities ∧ s₁.Next s₃) ∧ (r = .ok () → s₃ = s₂) := by
  cases h
  case done | replyLost => exact ⟨h₂, fun _ => rfl⟩
  case failed => exact ⟨⟨hv, .refl s₁⟩, fun h => nomatch h⟩

-- The result of an action, passed on as that of the call.
theorem keeps_result {r : Except Err Unit}
    (h : r = .ok () → Q s ()) : Keeps identities dialect Q s (liftM r) :=
  SafeOk.lift fun _ => h

theorem keeps_record (hid : Function.Injective identities) (i : Nat) (peer : PublicKey)
    (modelID : Text) (r : UsageRecord) :
    Keeps identities dialect Any s (record i peer modelID r) := by
  refine .bindLift fun total _ => ?_
  split
  case isTrue => exact .pure trivial
  case isFalse =>
    refine .bind keeps_now fun s now _ => ?_
    refine .bind (Q := Any) (keeps_act fun s₁ _ hv r s₂ hd => ⟨?_, trivial⟩)
      fun _ _ _ => keeps_result fun _ => trivial
    have he : s₂ = (s₁.record (identities i) i _ total).snd := congrArg Prod.snd hd
    rw [he]
    exact State.record_keeps hid hv i _ total

theorem keeps_checkAll (trimSpace : Text → Text) (items : List Snapshot) :
    Keeps identities dialect Any s (checkAll trimSpace items) := by
  induction items generalizing s
  case nil => exact .pure trivial
  case cons hi =>
    refine .bind keeps_now fun s _ _ => .bind keeps_now fun s _ _ => ?_
    exact .bindLift fun _ _ => hi

theorem keeps_write (trimSpace : Text → Text) {items : List Snapshot}
    (h : s.Pending i start items) :
    Keeps identities dialect (fun s _ => s.Pending i start items ∧ s.Written items) s
      (write trimSpace items) := by
  unfold write
  split
  case isTrue hi => exact .pure ⟨h, fun item hm => by simp [hi] at hm⟩
  case isFalse =>
    refine .bindKeep (stable_pending i start items) h (keeps_checkAll trimSpace items)
      fun s _ h _ => ?_
    refine .bindKeep (stable_pending i start items) h keeps_now fun s now h _ => ?_
    refine .bindLift fun c _ => ?_
    refine .bind (Q := fun s r => r = .ok () → s.Pending i start items ∧ s.Written items)
      (keeps_act fun s₁ hn hv r s₂ hd => ?_) fun s r hr => keeps_result hr
    have h₁ := (stable_pending i start items).later h hn
    have ⟨hkeeps, hok⟩ := keeps_commits hd hv (State.write_keeps hv dialect c h₁.quantity)
    refine ⟨hkeeps, fun hr => ⟨(stable_pending i start items).later h₁ hkeeps.right, ?_⟩⟩
    rw [hok hr]
    exact fun item hm _ => State.write_stored hv dialect c hm

theorem keeps_maintain : Keeps identities dialect Any s maintain := by
  refine .bind keeps_now fun s now _ => .bindLift fun c _ => ?_
  refine .bind (Q := Any) (keeps_act fun s₁ _ hv r s₂ hd => ⟨?_, trivial⟩)
    fun _ _ _ => keeps_result fun _ => trivial
  exact (keeps_commits hd hv (State.maintain_keeps hv dialect c)).left

-- Whatever is not in memory when the snapshot is taken has been written before.
theorem keeps_snapshot (c : Time) (h : start ≤ s.reports.length) :
    Keeps identities dialect (fun s items => s.Pending i start items) s (act (.snapshot i c)) := by
  refine keeps_act fun s₁ hn hv items s₂ hd => ?_
  have hitems : items = (s₁.snapshot i c).fst := congrArg Prod.fst hd
  have hs : s₂ = (s₁.snapshot i c).snd := congrArg Prod.snd hd
  have hle := (stable_length start).later h hn
  subst hitems hs
  refine ⟨State.snapshot_keeps hv i c, hle, fun item hm => ?quantity, fun r hr hi hret => ?missing⟩
  case quantity => exact (State.quantity_of_mem_snapshot hv hm).le
  case missing =>
    have hle : amount (s₁.reports.take start) r.row ≤ amount s₁.reports r.row :=
      amount_mono (List.take_prefix _ _) _
    have hret₁ := (State.snapshot_keeps hv i c).right.retained _ hret
    rcases hv.live r (List.mem_of_mem_take hr) hret₁ with ⟨b, hb, hrow⟩ | hdone
    case inr => exact .inl (hle.trans hdone)
    case inl =>
      have hkey : b.key = r.key := congrArg RowKey.key hrow
      rw [← hrow] at hle ⊢
      rcases State.snapshot_items hv i c (hi ▸ hb) (hkey ▸ hret) with hdone | hm
      case inl => exact .inl (hle.trans hdone)
      case inr => exact .inr ⟨_, hm, rfl, hle.trans_eq (hv.quantity _ b hb).symm⟩

theorem keeps_drain (trimSpace : Text → Text) {i start : Nat} (h : start ≤ s.reports.length) :
    Keeps identities dialect (fun s _ => s.Covered i start) s (drain trimSpace i) := by
  refine .bindKeep (stable_length start) h keeps_now fun s now h _ => ?_
  refine .bind (keeps_snapshot _ h) fun s items h => ?_
  split
  case isTrue hi => exact .pure (h.covered fun item hm => by simp [hi] at hm)
  case isFalse =>
    refine .bind (keeps_write trimSpace h) fun s _ h => ?_
    refine .bindKeep ((stable_pending i start items).and (stable_written items)) h keeps_now
      fun s now h _ => ?_
    refine keeps_act fun s₁ hn hv r s₂ hd => ?_
    have hp := (stable_pending i start items).later h.left hn
    have hw := (stable_written items).later h.right hn
    have hkeeps := State.acknowledge_keeps hv i (truncateHour now) hw
    exact ⟨hd ▸ hkeeps, hd ▸ (hp.covered hw).next hkeeps.right⟩

theorem keeps_leave (h : ∀ n ∈ start, s.Covered i n) :
    Keeps identities dialect Any s (act (.leave i start)) := by
  refine keeps_act fun s₁ hn hv r s₂ hd => ⟨?_, trivial⟩
  exact hd ▸ State.leave_keeps hv fun n hm => (h n hm).next hn

theorem keeps_flush (trimSpace : Text → Text) (i : Nat) :
    Keeps identities dialect Any s (flush trimSpace i) := by
  refine .bind (Q := fun s start => ∀ n ∈ start, n ≤ s.reports.length)
    (keeps_act fun s₁ _ hv r s₂ hd => ?enter) fun s start h => ?rest
  case enter =>
    cases hd
    case cancelled => exact ⟨⟨hv, .refl s₁⟩, fun _ h => nomatch h⟩
    case entered _ =>
      refine ⟨State.setRecorder_keeps hv rfl rfl, fun n hn => ?_⟩
      exact (Option.some.inj hn).ge
  case rest =>
    cases start
    case none => exact .throw
    case some start =>
      refine .bind (Q := fun s _ => s.Covered i start)
        (.tryCatch (keeps_drain trimSpace (h start rfl))
        fun s e => ?_) fun s _ h => keeps_leave fun n hn => Option.some.inj hn ▸ h
      exact .bind (keeps_leave fun _ h => nomatch h) fun _ _ _ => .throw

theorem keeps_close (trimSpace : Text → Text) (i : Nat) :
    Keeps identities dialect Any s (close trimSpace i) := by
  refine .bind (Q := Any) (keeps_act fun s₁ _ hv r s₂ hd => ⟨?_, trivial⟩)
    fun _ _ _ => keeps_flush trimSpace i
  exact hd ▸ State.setRecorder_keeps hv rfl rfl

theorem safe_program (hid : Function.Injective identities) (trimSpace : Text → Text) (op : Op) :
    Safe (Does identities dialect) (State.Inv identities) State.Next Any s
      (program trimSpace op) := by
  cases op
  case record i peer modelID r => exact (keeps_record hid i peer modelID r).safe
  case flush i => exact (keeps_flush trimSpace i).safe
  case close i => exact (keeps_close trimSpace i).safe
  case maintain => exact keeps_maintain.safe

end Calls

abbrev System := Config Act Reply (Except Err Unit) State

-- The configurations that recorders with these identities can get to.
abbrev Reachable (identities : Nat → Text) (dialect : Dialect) (trimSpace : Text → Text) :=
  Interleaving.Reachable (Does identities dialect) (program trimSpace) State.init

abbrev Steps (identities : Nat → Text) (dialect : Dialect) (trimSpace : Text → Text) :=
  Relation.ReflTransGen (Step (Does identities dialect) (program trimSpace))

section Sums

variable {identities : Nat → Text} {s s' : State} {key : BucketKey}

theorem State.Inv.sum_le_accepted (h : s.Inv identities) (key : BucketKey) :
    s.table.sum key ≤ s.accepted key :=
  tally_comp_le RowKey.key fun k _ => h.stored k

theorem State.Next.sum_le_sum (h : s.Next s') (hret : s'.Retained key) :
    s.table.sum key ≤ s'.table.sum key :=
  tally_comp_le RowKey.key fun k hk => h.stored k (hk ▸ hret)

-- When everything reported for the hour came before the last `Flush` of its recorder, it is stored.
theorem State.Inv.accepted_le_sum (hid : Function.Injective identities) (h : s.Inv identities)
    (hret : s.Retained key) (hf : ∀ r ∈ s.reports.drop (s.flushed r.recorder), r.key ≠ key) :
    s.accepted key ≤ s.table.sum key := by
  have hrows : ∀ k, k.key = key → amount s.reports k ≤ s.stored k := ?rows
  case _ => exact tally_comp_le RowKey.key hrows
  intro k hk
  by_cases hex : ∃ r ∈ s.reports, r.row = k
  case neg =>
    have hz : amount s.reports k = 0 := tally_eq_zero fun r hr he => hex ⟨r, hr, he⟩
    exact hz.trans_le (Nat.zero_le _)
  case pos =>
    have ⟨r, hr, hrow⟩ := hex
    have hkey : r.key = key := (congrArg RowKey.key hrow).trans hk
    -- All reports to this writer went to one recorder, and nothing came after its `Flush`.
    have hlate : ∀ r' ∈ s.reports.drop (s.flushed r.recorder), r'.row ≠ k := by
      intro r' hr' hrow'
      have hw : r'.writer = r.writer := congrArg RowKey.writer (hrow'.trans hrow.symm)
      have hi := (h.reported r' (List.mem_of_mem_drop hr')).recorder_eq hid (hw ▸ h.reported r hr)
      exact hf r' (hi ▸ hr') ((congrArg RowKey.key hrow').trans hk)
    have hsplit : amount s.reports k = amount (s.reports.take (s.flushed r.recorder)) k := by
      conv_lhs => rw [← List.take_append_drop (s.flushed r.recorder) s.reports]
      refine (tally_append _ _ k).trans ?_
      rw [tally_eq_zero hlate]
      rfl
    have hm : r ∈ s.reports.take (s.flushed r.recorder) := by
      rw [← List.take_append_drop (s.flushed r.recorder) s.reports] at hr
      exact (List.mem_append.mp hr).resolve_right fun hd => hlate r hd hrow
    have hc := (h.flushed r.recorder).stored r hm rfl (hkey ▸ hret)
    rw [hrow] at hc
    exact hsplit.trans_le hc

end Sums

-- As long as an hour is retained, its stored sum only grows, it is at most what was reported, and
-- it is all of that once every recorder has flushed what it accepted.
theorem usage_counted_once {identities : Nat → Text} {dialect : Dialect} {trimSpace : Text → Text}
    {c c' : System} (hid : Function.Injective identities)
    (hc : Reachable identities dialect trimSpace c) (hs : Steps identities dialect trimSpace c c')
    (key : BucketKey) (hret : c'.shared.Retained key) :
    c.shared.table.sum key ≤ c'.shared.table.sum key ∧
    c'.shared.table.sum key ≤ c'.shared.accepted key ∧
    ((∀ r ∈ c'.shared.reports.drop (c'.shared.flushed r.recorder), r.key ≠ key) →
      c'.shared.table.sum key = c'.shared.accepted key) := by
  have hprogram : ∀ op s, State.Inv identities s → Safe (Does identities dialect)
      (State.Inv identities) State.Next Any s (program trimSpace op) :=
    fun op _ _ => safe_program hid trimSpace op
  have hsound := hc.sound State.Next.refl State.Next.trans hprogram State.inv_init
  have ⟨hsound', hnext⟩ := hsound.steps State.Next.refl State.Next.trans hprogram hs
  refine ⟨hnext.sum_le_sum hret, hsound'.inv.sum_le_accepted key, fun hf => ?_⟩
  exact le_antisymm (hsound'.inv.sum_le_accepted key) (hsound'.inv.accepted_le_sum hid hret hf)

theorem Reachable.of_run {β : Type} {b : β} (f : System → β) (t : List (Turn Op Time))
    (h : ((Config.init State.init : System).run (perform identities dialect)
    (program trimSpace) t).map
      f = some b) : ∃ c, Reachable identities dialect trimSpace c ∧ f c = b :=
  Interleaving.Reachable.exists_run (does_of_perform identities dialect) h

namespace Sample

def key : BucketKey where
  peer := 1
  model := ascii "m"
  hour := 0

-- Two recorders take reports for one hour and flush, and the first one gets another report after it
-- has dropped its bucket.
def turns : List (Turn Op Time) :=
  .call 0 (.record 0 1 (ascii "m") ⟨1, 0, 2⟩) :: List.replicate 2 (.act 0 0) ++
  .call 1 (.record 1 1 (ascii "m") ⟨0, 4, 0⟩) :: List.replicate 2 (.act 1 0) ++
  .call 2 (.flush 0) :: List.replicate 10 (.act 2 hour) ++
  .call 3 (.record 0 1 (ascii "m") ⟨5, 0, 0⟩) :: List.replicate 2 (.act 3 0) ++
  .call 4 (.flush 0) :: List.replicate 10 (.act 4 0) ++
  .call 5 (.flush 1) :: List.replicate 10 (.act 5 0)

end Sample

theorem usage_counted_once_sample :
    ∃ c, Reachable decimal .sqlite id c ∧ c.shared.table.length = 3 ∧
      c.shared.accepted Sample.key = 12 ∧
      c.shared.table.sum Sample.key = c.shared.accepted Sample.key := by
  obtain ⟨c, hc, hrun⟩ : ∃ c, Reachable decimal .sqlite id c ∧ _ = (3, 12, true, true) :=
    Reachable.of_run (fun c => (c.shared.table.length, c.shared.accepted Sample.key,
        decide (c.shared.Retained Sample.key),
        decide (∀ r ∈ c.shared.reports, r ∉ c.shared.reports.drop (c.shared.flushed r.recorder))))
      Sample.turns (by decide +kernel)
  simp only [Prod.mk.injEq, decide_eq_true_eq] at hrun
  have hsum :=
      (usage_counted_once decimal_injective hc .refl Sample.key hrun.right.right.left).right.right
  refine ⟨c, hc, hrun.left, hrun.right.left, hsum fun r hr => ?_⟩
  exact absurd hr (hrun.right.right.right r (List.mem_of_mem_drop hr))

end GizClaw.PeerUsage

import GizClaw.Lib.Wakeup
import GizClaw.Streamkit.Theorems.Output
import GizClaw.Streamkit.Waits

-- Which calls on an output are told that they can go on, and which are not.

namespace GizClaw.Streamkit

open Monitor

variable {α : Type} {cfg : OutputConfig} {o o' : Output α}

def Output.isClosed (o : Output α) : Bool :=
  o.closed || o.closeErr.isSome

namespace Waits

def Op.isNext : Op α → Bool
  | .next => true
  | _ => false

@[local simp]
def Op.isWaitForObservers : Op α → Bool
  | .waitForObservers => true
  | _ => false

def free (op : Op α) (o : Output α) : Bool :=
  (op.isNext && (!o.queue.isEmpty || o.isClosed)) || (op.isWaitForObservers && o.observers = 0)

-- No chunk is queued while both `next` and another call wait.
def apart (c : System (Output α) (Op α) (Result α)) : Op α → Bool
  | .pushTracked .. => !(c.calls.any (·.waitsFor Op.isNext) && c.calls.any (·.waitsFor (!·.isNext)))
  | _ => true

-- What a section may do to what calls wait for as long as it does not tell all of them.
structure Spares (o o' : Output α) : Prop where
  closed : o'.isClosed → o.isClosed
  observers : o'.observers = 0 → o.observers = 0
  queue : o'.queue.length ≤ o.queue.length

inductive Effect (op : Op α) (o o' : Output α) : Notice → Outcome (Op α) (Result α) → Prop
  | wait (ho : o' = o) (hop : op.isNext ∨ op.isWaitForObservers) (hf : ¬free op o) :
    Effect op o o' .silent (.wait op)
  | all {outcome : Outcome (Op α) (Result α)} (hw : ∀ k, outcome ≠ .wait k) :
    Effect op o o' .all outcome
  | silent {outcome : Outcome (Op α) (Result α)} (hw : ∀ k, outcome ≠ .wait k) (hs : Spares o o')
    (htakes : op.isNext → o'.isClosed ∨ o'.queue.length + 1 ≤ o.queue.length) :
    Effect op o o' .silent outcome
  | one {outcome : Outcome (Op α) (Result α)} (hw : ∀ k, outcome ≠ .wait k)
    (hop : ∃ chunk bytes observe abandon, op = .pushTracked chunk bytes observe abandon)
    (hs : Spares { o with queue := o'.queue } o') (hqueue : o'.queue.length = o.queue.length + 1) :
    Effect op o o' .one outcome

section Sections

theorem Spares.refl : Spares o o :=
  ⟨id, id, le_rfl⟩

theorem Spares.signal (cfg : OutputConfig) (h : Spares o o') : Spares o (o'.signalSettled cfg) := by
  rw [Output.signalSettled_eq]
  exact ⟨h.closed, h.observers, h.queue⟩

theorem Spares.track (cfg : OutputConfig) (tracked : Bool) (entry : Entry α) :
    Spares o ((if tracked then o.track cfg entry else o).signalSettled cfg) := by
  refine .signal cfg ?_
  cases tracked
  case false => exact .refl
  case true => cases hd : cfg.deferred <;> constructor <;> simp [Output.track, hd, Output.isClosed]

variable {op : Op α} {notice : Notice} {outcome : Outcome (Op α) (Result α)}

theorem next_none (h : o.next cfg = none) : o.queue = [] ∧ ¬o.isClosed := by
  unfold Output.next at h
  split at h
  case isTrue he => simpa [Output.isClosed, and_assoc] using he
  case isFalse => split at h <;> first | contradiction | (split at h <;> contradiction)

theorem next_some (h : o.next cfg = some (result, o')) :
    Spares o o' ∧ (o'.isClosed ∨ o'.queue.length + 1 ≤ o.queue.length) := by
  have ⟨he, h⟩ := Option.ite_none_left_eq_some.mp h
  split at h
  case h_1 herr =>
    cases h
    exact ⟨.refl, .inl (by simp [Output.isClosed, herr])⟩
  case h_2 herr =>
    split at h
    case h_1 hq =>
      cases h
      exact ⟨.refl, .inl (by simpa [Output.isClosed, hq, herr] using he)⟩
    case h_2 entry queue hq =>
      cases h
      have hs := Spares.track (o := { o with
        queue := queue, queuedBytes := o.queuedBytes - entry.bytes }) cfg
        ((entry.observe || cfg.observe) && !o.observationAborted) entry
      have hle : _ ≤ queue.length := hs.queue
      rw [hq, List.length_cons]
      exact ⟨⟨hs.closed, hs.observers, hq ▸ hle.trans (Nat.le_succ _)⟩,
        .inr (Nat.succ_le_succ hle)⟩

theorem remove_spares (ids : List Nat) : Spares o (o.remove cfg ids).snd :=
  .signal cfg ⟨id, id, List.length_filter_le _ _⟩

theorem abandonDeferred_eq (h : o.deferredObservers = 0) :
    o.abandonDeferredObservations cfg = ([], o) :=
  if_pos h

theorem cancelObservations_spares (h : o.deferredObservers = 0) :
    Spares o (o.cancelObservations cfg).snd := by
  unfold Output.cancelObservations
  rw [abandonDeferred_eq (o := { o with observationAborted := true }) h]
  exact .signal cfg ⟨id, id, (List.length_map _).le⟩

theorem observeOutput_spares [DecidableEq α] (chunk : α) :
    Spares o (o.observeOutput cfg chunk).snd := by
  unfold Output.observeOutput
  split
  case h_2 => exact .refl
  case h_1 => split <;> exact ⟨id, id, le_rfl⟩

theorem push_effect :
    Effect (.pushTracked chunk bytes observe abandon) o
      (o.pushTracked cfg chunk bytes observe abandon).snd.snd (pushNotice cfg o bytes)
      (.done (.pushed (o.pushTracked cfg chunk bytes observe abandon).fst)) := by
  have hsilent : Effect (.pushTracked chunk bytes observe abandon) o o .silent
      (.done (.pushed (o.pushTracked cfg chunk bytes observe abandon).fst)) :=
    .silent nofun .refl nofun
  unfold Output.pushTracked pushNotice closeWithErrorNotice
  cases herr : o.closeErr
  case some => simpa [Output.pushTracked, herr] using hsilent
  case none =>
    by_cases hc : o.closed
    case pos => simpa [Output.pushTracked, herr, hc] using hsilent
    case neg =>
      simp only [hc, Option.isSome_none, Bool.false_eq_true, Bool.or_false, ↓reduceIte]
      split
      case isTrue => exact .all nofun
      case isFalse =>
        exact .one nofun ⟨_, _, _, _, rfl⟩ ⟨nofun, id, le_rfl⟩ (by simp)

variable [DecidableEq α]

theorem step_effect (h : step cfg o op = (o', notice, outcome)) :
    Effect op o o' notice outcome := by
  cases op <;> simp only [step] at h
  case next =>
    split at h
    case h_1 hn =>
      cases h
      have ⟨hq, hc⟩ := next_none hn
      exact .wait rfl (.inl rfl) (by simp [free, Op.isNext, hq, hc])
    case h_2 hn =>
      cases h
      have ⟨hs, htakes⟩ := next_some hn
      exact .silent nofun hs fun _ => htakes
    case h_3 observing _ hn =>
      cases h
      have ⟨hs, htakes⟩ := next_some hn
      exact .silent (by cases observing <;> nofun) hs fun _ => htakes
  case finish => cases h; exact .all nofun
  case waitForObservers =>
    cases h
    split
    case isFalse => exact .silent nofun .refl nofun
    case isTrue ho =>
      exact .wait rfl (.inr rfl) (by simpa [free, Op.isNext] using ho)
  case pushTracked => cases h; exact push_effect
  case discard => cases h; exact .silent nofun .refl nofun
  case remove ids => cases h; exact .silent nofun (remove_spares ids) nofun
  case close =>
    cases h
    unfold closeNotice Output.close
    split
    case isTrue => exact .all nofun
    case isFalse => exact .silent nofun .refl nofun
  case fail =>
    cases h
    unfold closeNotice Output.fail
    split
    case isTrue => exact .all nofun
    case isFalse => exact .silent nofun .refl nofun
  case closeWithError =>
    cases h
    unfold closeWithErrorNotice Output.closeWithError abandonNotice
    split
    case isTrue => exact .silent nofun .refl nofun
    case isFalse =>
      split
      case isFalse => exact .all nofun
      case isTrue =>
        split
        case isTrue hd => exact .silent nofun (cancelObservations_spares hd) nofun
        case isFalse => exact .all nofun
  case observeOutput chunk =>
    cases h
    exact .silent (by split <;> nofun) (observeOutput_spares chunk) nofun
  case abandonOutputObservation chunk =>
    cases h
    unfold Output.abandonOutputObservation
    cases hd : o.deferred.find? (·.chunk = chunk)
    case none =>
      have hany : o.deferred.any (·.chunk = chunk) = false := by
        simpa using List.find?_eq_none.mp hd
      rw [hany, Bool.and_false]
      exact .silent nofun .refl nofun
    case some d =>
      have hany : o.deferred.any (·.chunk = chunk) :=
        List.any_eq_true.mpr ⟨d, List.mem_of_find?_eq_some hd, by simpa using List.find?_some hd⟩
      cases hc : cfg.deferred <;> simp only [hany, Bool.and_true, Bool.false_eq_true, ↓reduceIte]
      case true => exact .all nofun
      case false => exact .silent nofun .refl nofun
  case abandonDeferredObservations =>
    cases h
    unfold abandonNotice
    split
    case isTrue hd => rw [abandonDeferred_eq hd]; exact .silent nofun .refl nofun
    case isFalse => exact .all nofun

end Sections

section Runs

variable {c : System (Output α) (Op α) (Result α)} {op : Op α} {notice : Notice}
  {outcome : Outcome (Op α) (Result α)}

theorem free_next (hop : op.isNext) : free op o ↔ o.isClosed ∨ 0 < o.queue.length := by
  cases op <;> cases hop
  rw [List.length_pos_iff, or_comm]
  simp [free, Op.isNext]

theorem free_other (hop : ¬op.isNext) : free op o ↔ op.isWaitForObservers ∧ o.observers = 0 := by
  simp [free, hop]

theorem Spares.free (h : Spares { o with queue := o'.queue } o') (hop : ¬op.isNext)
    (hf : free op o') : free op o := by
  have ⟨hw, ho⟩ := (free_other hop).mp hf
  exact (free_other hop).mpr ⟨hw, h.observers ho⟩

-- While `next` waits, only `next` does when a chunk is queued.
theorem isNext_of_apart (hg : apart c (.pushTracked chunk bytes observe abandon))
    (h : ∃ x ∈ c.calls, x.waitsFor Op.isNext) (hy : y ∈ c.calls)
    (hw : y.phase.isWaiting) : y.waitsFor Op.isNext := by
  have ⟨k, hk⟩ := Phase.isWaiting_iff.mp hw
  refine Call.waitsFor_iff.mpr ⟨k, hk, ?_⟩
  by_contra hnot
  have hother : c.calls.any (·.waitsFor (!·.isNext)) :=
    List.any_eq_true.mpr ⟨y, hy, Call.waitsFor_iff.mpr ⟨k, hk, by simpa using hnot⟩⟩
  simp [apart, List.any_eq_true.mpr h, hother] at hg

theorem Effect.serves (h : Effect op c.shared o' notice outcome) (hg : apart c op) :
    Serves Op.isNext (fun o => o.queue.length) Output.isClosed free c op o' notice outcome := by
  cases h
  case wait ho hop hf =>
    subst ho
    have hnone (hnext : op.isNext) : ¬c.shared.isClosed ∧ c.shared.queue.length = 0 := by
      simpa [free_next hnext] using hf
    refine ⟨fun k hk => ?_, fun _ => id, fun _ _ _ => id, fun _ hc => ?_, nofun⟩
    · cases hk
      exact ⟨hnone, fun _ => hf⟩
    · split
      case isTrue hnext => exact .inl (hnone hnext).right
      case isFalse => exact .inr le_rfl
  case all hw => exact ⟨fun k hk => absurd hk (hw k), (absurd rfl ·), (absurd rfl ·), nofun, nofun⟩
  case silent hs htakes hw =>
    refine ⟨fun k hk => absurd hk (hw k), fun _ => hs.closed,
      fun _ _ => Spares.free ⟨hs.closed, hs.observers, le_rfl⟩, fun _ hc => .inr ?_, nofun⟩
    split
    case isTrue hnext => exact (htakes hnext).resolve_left hc
    case isFalse => exact hs.queue
  case one hop hs hqueue hw =>
    obtain ⟨_, _, _, _, rfl⟩ := hop
    exact ⟨fun k hk => absurd hk (hw k), fun _ => hs.closed, fun _ _ => hs.free, nofun,
      fun _ => ⟨nofun, hqueue.le, fun h y hy => isNext_of_apart hg h hy⟩⟩

variable [DecidableEq α]

theorem wakeups_heard (h : Reachable .condition (body cfg) apart o c) : ¬c.stuck free := by
  have hserved : Served Op.isNext (fun o => o.queue.length) Output.isClosed free c :=
    h.served fun c i op o' notice outcome hg hb => (step_effect hb).serves hg
  exact hserved.not_stuck fun op o hop hf => (free_next hop).mp hf

def deferring : OutputConfig where
  maxBytes := 0
  observe := true
  deferred := true

theorem wakeups_heard_one : ∃ c, Reachable .condition (body deferring) apart (.new : Output Nat) c ∧
    c.shared.queue.length = 1 ∧ ¬c.stuck free := by
  have ⟨c, hc, hqueue⟩ : ∃ c, Reachable .condition (body deferring) apart (.new : Output Nat) c ∧
      c.shared.queue.length = 1 :=
    Reachable.exists_play [.call .next, .run 0 none, .call (.pushTracked 1 0 true true),
      .run 1 (some 0)] (by decide)
  exact ⟨c, hc, hqueue, wakeups_heard hc⟩

-- The first chunk is pulled and its observation is still to come, so that `waitForObservers` waits.
-- Then `next` waits as well, and the notice of the second chunk goes to the other one.
theorem wakeup_absorbed : ∃ c, Reachable .condition (body deferring) (fun _ _ => true)
    (.new : Output Nat) c ∧ c.stuck free :=
  Reachable.exists_play [.call (.pushTracked 1 0 true true), .run 0 none, .call .next, .run 1 none,
    .call .waitForObservers, .run 2 none, .call .next, .run 3 none,
    .call (.pushTracked 2 0 true true), .run 4 (some 2), .run 2 none] (by decide)

end Runs

end Waits

end GizClaw.Streamkit

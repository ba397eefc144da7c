import GizClaw.Streamkit.Delivery
import GizClaw.Streamkit.Theorems.Output

-- Every chunk that was pushed is observed or abandoned, once.

namespace GizClaw.Streamkit.Delivery

open Multiset (count_add count_singleton coe_count count_zero)

-- A thread is about to run a callback, or to report that an observer has returned.
inductive Token where
  | observe (chunk : Nat)
  | finish (chunk : Nat)
  | abandon (chunk : Nat)
  deriving DecidableEq

structure Inv (cfg : OutputConfig) (s : State) (tokens : Multiset Token) : Prop where
  valid : s.output.Valid cfg s.observing.length
  fresh : (s.accepted ++ s.rejected).Nodup
  order : s.accepted.filter (· ∉ s.discarded) = s.pulled ++ s.output.queue.map Entry.chunk
  discarded : ∀ c ∈ s.discarded, c ∈ s.accepted
  outcome : ∀ c, (s.accepted ++ s.rejected).count c = s.output.owed c +
    tokens.count (.observe c) + tokens.count (.abandon c) + s.observed.count c + s.abandoned.count c
  observing : ∀ c, s.observing.count c = tokens.count (.observe c) + tokens.count (.finish c)

theorem inv_init (cfg : OutputConfig) : Inv cfg .init 0 where
  valid := Output.valid_new
  fresh := .nil
  order := rfl
  discarded := fun _ h => absurd h List.not_mem_nil
  outcome := fun _ => rfl
  observing := fun _ => rfl

variable {cfg : OutputConfig} {s s' : State} {held rest tokens : Multiset Token} {c : Nat}

section Steps

-- The callbacks that are to be run for chunks that are not delivered.
def due (chunks : List Nat) : Multiset Token :=
  (chunks.map Token.abandon : List Token)

theorem count_due_abandon (chunks : List Nat) : (due chunks).count (.abandon c) =
    chunks.count c := by
  rw [due, coe_count]
  exact List.count_map_of_injective _ _ (fun _ _ => Token.abandon.inj) c

theorem count_due (chunks : List Nat) (ht : ∀ c, t ≠ .abandon c) : (due chunks).count t = 0 := by
  rw [due, coe_count, List.count_eq_zero]
  simpa using fun c _ he => ht c he.symm

-- The callback that a pulled chunk asks for.
def toObserve : Output.Pulled Nat → Multiset Token
  | .chunk chunk observing => if observing then {.observe chunk} else 0
  | .error _ => 0

section

variable (h : Inv cfg s tokens)
include h

-- Chunks are given up in the output or not taken into it, and those who wait for them are to be
-- told.
theorem Inv.giveUp {chunks discarded rejected : List Nat} (hvalid : o.Valid cfg s.observing.length)
    (hfresh : (s.accepted ++ rejected).Nodup)
    (horder : s.accepted.filter (· ∉ discarded) = s.pulled ++ o.queue.map Entry.chunk)
    (hdiscarded : ∀ c ∈ discarded, c ∈ s.accepted)
    (howed : ∀ c, s.output.owed c + rejected.count c =
    o.owed c + chunks.count c + s.rejected.count c) :
    Inv cfg { s with output := o, discarded := discarded, rejected := rejected }
      (due chunks + tokens) where
  valid := hvalid
  fresh := hfresh
  order := horder
  discarded := hdiscarded
  outcome := by
    intro c
    have hold := h.outcome c
    have hnew := howed c
    rw [List.count_append] at hold
    simp only [count_add, count_due_abandon, count_due (t := .observe c) chunks (by simp),
      List.count_append]
    omega
  observing := by
    intro c
    simp only [count_add, count_due (t := .observe c) chunks (by simp),
      count_due (t := .finish c) chunks (by simp), zero_add]
    exact h.observing c

theorem Inv.same {o : Output Nat} (hvalid : o.Valid cfg s.observing.length)
    (hqueue : o.queue = s.output.queue) (hdeferred : o.deferred = s.output.deferred) :
    Inv cfg { s with output := o } tokens := by
  have hinv : Inv cfg { s with output := o } (due [] + tokens) := by
    refine h.giveUp hvalid h.fresh (hqueue ▸ h.order) h.discarded fun c => ?_
    rw [Output.owed, Output.owed, hqueue, hdeferred]
    rfl
  exact zero_add tokens ▸ hinv

theorem Inv.nodup : (s.pulled ++ s.output.queue.map Entry.chunk).Nodup := by
  rw [← h.order]
  exact (List.nodup_append.mp h.fresh).left.filter _

-- Whatever leaves the queue without being pulled is discarded.
theorem Inv.discard (queue : List (Entry Nat)) (removed : List Nat)
    (hqueue : queue.map Entry.chunk = (s.output.queue.map Entry.chunk).filter (· ∉ removed))
    (hremoved : ∀ c ∈ removed, c ∈ s.output.queue.map Entry.chunk) :
    s.accepted.filter (· ∉ s.discarded ++ removed) = s.pulled ++ queue.map Entry.chunk ∧
      ∀ c ∈ s.discarded ++ removed, c ∈ s.accepted := by
  have hdisjoint := List.disjoint_of_nodup_append h.nodup
  constructor
  · have hsplit : s.accepted.filter (· ∉ s.discarded ++ removed) =
        (s.accepted.filter (· ∉ s.discarded)).filter (· ∉ removed) := by
      rw [List.filter_filter]
      congr 1
      funext c
      simp [and_comm]
    rw [hsplit, h.order, List.filter_append, hqueue]
    congr 1
    refine List.filter_eq_self.mpr fun c hc => ?_
    simpa using fun hm => hdisjoint hc (hremoved c hm)
  · intro c hc
    rcases List.mem_append.mp hc with hc | hc
    · exact h.discarded c hc
    · have hmem : c ∈ s.accepted.filter (· ∉ s.discarded) := by
        rw [h.order]
        exact List.mem_append_right _ (hremoved c hc)
      exact List.mem_of_mem_filter hmem

theorem Inv.aborts {o : Output Nat}
    (hqueue : o.queue.map Entry.chunk =
      if s.output.closed then s.output.queue.map Entry.chunk else []) :
    s.accepted.filter (· ∉ s.discarded ++ s.aborts) = s.pulled ++ o.queue.map Entry.chunk ∧
      ∀ c ∈ s.discarded ++ s.aborts, c ∈ s.accepted := by
  refine h.discard _ _ ?_ fun c hc => ?_
  · rw [hqueue, State.aborts]
    split
    case isTrue => simp
    case isFalse => exact (List.filter_eq_nil_iff.mpr fun c hc => by simpa using hc).symm
  · rw [State.aborts] at hc
    split at hc
    case isTrue => exact absurd hc List.not_mem_nil
    case isFalse => exact hc

theorem Inv.closeWithError (err : OutputError) :
    Inv cfg (s.closeWithError cfg err).snd (due (s.closeWithError cfg err).fst + tokens) := by
  have ⟨hvalid, hqueue, howed⟩ := h.valid.closeWithError err
  have ⟨horder, hdiscarded⟩ := h.aborts hqueue
  exact h.giveUp hvalid h.fresh horder hdiscarded fun c => congrArg (· + _) (howed c)

theorem Inv.push {chunk : Nat} (hnew : chunk ∉ s.accepted ++ s.rejected) (bytes : Nat) :
    Inv cfg (s.push cfg chunk bytes).snd (due (s.push cfg chunk bytes).fst + tokens) := by
  have hp := h.valid.pushTracked chunk bytes
  unfold State.push
  generalize s.output.pushTracked cfg chunk bytes true true = r at hp ⊢
  cases hp
  case ok o' hqueue hvalid howed =>
    have hkept : chunk ∉ s.discarded := fun hm => hnew (List.mem_append_left _ (h.discarded _ hm))
    have hinv : Inv cfg { s with output := o', accepted := s.accepted ++ [chunk] } tokens := by
      refine ⟨hvalid, ?_, ?_, ?_, fun c => ?_, h.observing⟩
      · rw [List.append_assoc]
        refine List.nodup_middle.mpr (List.nodup_cons.mpr ⟨hnew, h.fresh⟩)
      · rw [List.filter_append, h.order, hqueue, List.append_assoc]
        simp [hkept]
      · exact fun c hc => List.mem_append_left _ (h.discarded c hc)
      · have hc := h.outcome c
        simp only [List.count_append, List.count_singleton, beq_iff_eq, howed c] at hc ⊢
        omega
    exact (zero_add tokens).symm ▸ hinv
  case closed hclosed =>
    simp only [hclosed, if_true]
    exact (zero_add tokens).symm ▸ h
  case limit o' hopen hqueue hvalid howed =>
    simp only [hopen, Bool.false_eq_true, if_false]
    obtain ⟨horder, hdiscarded⟩ := h.aborts (o := o') (by simp [hopen, hqueue])
    refine h.giveUp hvalid ?_ horder hdiscarded fun c => ?_
    · rw [← List.append_assoc]
      exact List.nodup_append_comm.mp (List.nodup_cons.mpr ⟨hnew, h.fresh⟩)
    · have hc := howed c
      simp only [List.count_append, List.count_singleton, beq_iff_eq]
      omega

theorem Inv.remove (ids : List Nat) :
    Inv cfg (s.remove cfg ids).snd (due (s.remove cfg ids).fst + tokens) := by
  have ⟨hvalid, hqueue, hremoved, howed⟩ := h.valid.remove ids
  have hnodup := (List.nodup_append.mp h.nodup).right.left
  have ⟨horder, hdiscarded⟩ := h.discard (s.output.remove cfg ids).snd.queue
    ((s.output.remove cfg ids).fst.map Entry.chunk) ?_ ?_
  · exact h.giveUp hvalid h.fresh horder hdiscarded fun c => congrArg (· + _) (howed c)
  · rw [hqueue, hremoved, List.filter_map]
    congr 1
    refine List.filter_congr fun e he => ?_
    simp only [Function.comp, decide_eq_decide, List.mem_map, List.mem_filter,
      decide_eq_true_eq, not_exists,
      not_and, and_imp]
    constructor
    · intro hid e' he' hid' hchunk
      rw [List.inj_on_of_nodup_map hnodup he' he hchunk] at hid'
      exact hid hid'
    · exact fun hnone hid => hnone e he hid rfl
  · intro c hc
    have ⟨e, he, hchunk⟩ := List.mem_map.mp hc
    exact List.mem_map.mpr ⟨e, List.mem_of_mem_filter he, hchunk⟩

theorem Inv.abandonDeferred :
    Inv cfg { s with output := (s.output.abandonDeferredObservations cfg).snd }
      (due (s.output.abandonDeferredObservations cfg).fst + tokens) := by
  have ⟨hvalid, hqueue, howed⟩ := h.valid.abandonDeferredObservations
  exact h.giveUp hvalid h.fresh (hqueue ▸ h.order) h.discarded fun c => congrArg (· + _) (howed c)

theorem Inv.release {chunk : Nat} :
    Inv cfg { s with output := (s.output.abandonOutputObservation cfg chunk).snd }
      (due (if (s.output.abandonOutputObservation cfg chunk).fst then [chunk] else []) + tokens) :=
      by
  have ⟨hvalid, hqueue, howed⟩ := h.valid.abandonOutputObservation chunk
  refine h.giveUp hvalid h.fresh (hqueue ▸ h.order) h.discarded fun c => congrArg (· + _)
    ((howed c).trans ?_)
  cases (s.output.abandonOutputObservation cfg chunk).fst <;> simp [List.count_singleton]

theorem Inv.pull (hr : s.output.next cfg = some r) :
    Inv cfg (s.pull r) (toObserve r.fst + tokens) := by
  obtain ⟨r, o'⟩ := r
  cases h.valid.next hr
  case error => exact (zero_add tokens).symm ▸ h
  case chunk entry queue observing hqueue hrest hvalid howed =>
    have horder : s.accepted.filter (· ∉ s.discarded) =
        s.pulled ++ [entry.chunk] ++ o'.queue.map Entry.chunk := by
      rw [h.order, hqueue, hrest, List.map_cons, List.append_assoc]
      rfl
    cases observing
    case false =>
      rw [toObserve, if_neg Bool.false_ne_true, zero_add]
      refine ⟨hvalid, h.fresh, horder, h.discarded, fun c => ?_, h.observing⟩
      have hc := h.outcome c
      rw [howed c] at hc
      simpa [State.pull] using hc
    case true =>
      refine ⟨by simpa [State.pull] using hvalid, h.fresh, horder, h.discarded, fun c =>
        ?_, fun c => ?_⟩
      · have hc := h.outcome c
        rw [howed c] at hc
        simp only [toObserve, count_add, count_singleton, Token.observe.injEq,
          reduceCtorEq, if_false, if_true, State.pull, true_and, eq_comm (a := entry.chunk)] at hc ⊢
        omega
      · have hc := h.observing c
        simp only [toObserve, count_add, count_singleton, Token.observe.injEq,
          reduceCtorEq, if_false, State.pull, if_true, List.count_append, List.count_singleton,
          beq_iff_eq, eq_comm (a := entry.chunk)]
        omega

theorem Inv.claim (chunk : Nat) :
    Inv cfg (s.claim cfg chunk).snd ((match (s.claim cfg chunk).fst with
      | some true => {.observe chunk}
      | _ => 0) + tokens) ∧ (s.claim cfg chunk).fst ≠ some false := by
  have hp := h.valid.observeOutput chunk
  unfold State.claim
  generalize s.output.observeOutput cfg chunk = r at hp ⊢
  cases hp
  case none => exact ⟨(zero_add tokens).symm ▸ h, nofun⟩
  case observing hqueue hvalid howed =>
    refine ⟨⟨by simpa using hvalid, h.fresh, hqueue ▸ h.order, h.discarded, fun c => ?_,
      fun c => ?_⟩, nofun⟩
    · have hc := h.outcome c
      rw [howed c] at hc
      simp only [count_add, count_singleton, Token.observe.injEq,
        reduceCtorEq, if_false,
        eq_comm (a := chunk)] at hc ⊢
      omega
    · have hc := h.observing c
      simp only [count_add, count_singleton, Token.observe.injEq,
        reduceCtorEq, if_false,
        Option.isSome_some, if_true, List.count_append, List.count_singleton, beq_iff_eq,
          eq_comm (a := chunk)]
      omega

end

theorem Inv.observe (h : Inv cfg s ({.observe chunk} + tokens)) :
    Inv cfg { s with observed := s.observed ++ [chunk] } ({.finish chunk} + tokens) := by
  refine ⟨h.valid, h.fresh, h.order, h.discarded, fun c => ?_, fun c => ?_⟩
  · have hc := h.outcome c
    simp only [count_add, count_singleton, Token.observe.injEq,
      reduceCtorEq, if_false,
      List.count_append, List.count_singleton, beq_iff_eq, eq_comm (a := chunk)] at hc ⊢
    omega
  · have hc := h.observing c
    simp only [count_add, count_singleton, Token.observe.injEq,
      Token.finish.injEq, reduceCtorEq,
      if_false] at hc ⊢
    omega

theorem Inv.finish (h : Inv cfg s ({.finish chunk} + tokens)) :
    Inv cfg { s with output := s.output.finishObservation cfg
                     observing := s.observing.erase chunk } tokens := by
  have hmem : chunk ∈ s.observing := by
    have hpos : 0 < ({.finish chunk} + tokens).count (.finish chunk) :=
        Multiset.count_pos.mpr (by simp)
    rw [← List.count_pos_iff, h.observing chunk]
    omega
  have hlength : (s.observing.erase chunk).length + 1 = s.observing.length := by
    have hpos := List.length_pos_of_mem hmem
    rw [List.length_erase_of_mem hmem]
    omega
  have hvalid := h.valid
  rw [← hlength] at hvalid
  refine ⟨hvalid.finishObservation, h.fresh, ?_, h.discarded, fun c => ?_, fun c => ?_⟩
  · simp only [Output.finishObservation, Output.signalSettled_eq]
    exact h.order
  · simp only [Output.finishObservation, Output.owed_signalSettled]
    have hc := h.outcome c
    simp only [count_add, count_singleton, reduceCtorEq, if_false, zero_add] at hc
    exact hc
  · have hc := h.observing c
    simp only [count_add, count_singleton, Token.finish.injEq,
      reduceCtorEq, if_false,
      zero_add] at hc
    rw [List.count_erase, hc]
    simp only [beq_iff_eq, eq_comm (a := chunk)]
    omega

theorem Inv.abandon (h : Inv cfg s ({.abandon chunk} + tokens)) :
    Inv cfg { s with abandoned := s.abandoned ++ [chunk] } tokens := by
  refine ⟨h.valid, h.fresh, h.order, h.discarded, fun c => ?_, fun c => ?_⟩
  · have hc := h.outcome c
    simp only [count_add, count_singleton, Token.abandon.injEq,
      reduceCtorEq, if_false,
      List.count_append, List.count_singleton, beq_iff_eq, eq_comm (a := chunk)] at hc ⊢
    omega
  · have hc := h.observing c
    simp only [count_add, count_singleton, reduceCtorEq, if_false, zero_add] at hc
    exact hc

end Steps

section Calls

def Entry (_ : Op) (tokens : Multiset Token) : Prop :=
  tokens = 0

abbrev Owns {α : Type} (cfg : OutputConfig) (Q : α → Multiset Token → Prop) (held : Multiset Token)
    (p : Call α) : Prop :=
  Threads.Owns (system cfg) (Inv cfg) Entry Q held p

abbrev Finishes (cfg : OutputConfig) (held : Multiset Token) (p : Call Unit) : Prop :=
  Owns cfg (fun _ left => left = 0) held p

theorem owns_act
    (h : ∀ s rest selects r s', Inv cfg s (held + rest) → perform cfg selects a s = some (r, s') →
      ∃ held', Inv cfg s' (held' + rest) ∧ Q r held') : Owns cfg Q held (act a) := by
  refine .act (fun _ => rfl) fun s rest r s' hinv ⟨selects, hp⟩ => ?_
  exact h s rest selects r s' hinv hp

theorem runAbandonments_finishes (chunks : List Nat) :
    Finishes cfg (due chunks) (runAbandonments chunks) := by
  induction chunks
  case nil => exact rfl
  case cons chunk chunks hi =>
    have hsplit : due (chunk :: chunks) = {.abandon chunk} + due chunks := rfl
    refine .bind (Q := fun _ left => left = due chunks) ?_
      fun _ left hleft => hleft ▸ hi
    refine owns_act fun s rest selects r s' hinv hp => ?_
    cases hp
    rw [hsplit, add_assoc] at hinv
    exact ⟨_, hinv.abandon, rfl⟩

-- What an action gives up is told to those who wait for it.
theorem giving_finishes {given : Reply a → List Nat} {next : Reply a → Call Unit}
    (hnext : ∀ r, next r = runAbandonments (given r))
    (h : ∀ s tokens selects r s', Inv cfg s tokens → perform cfg selects a s = some (r, s') →
      Inv cfg s' (due (given r) + tokens)) : Finishes cfg 0 (act a >>= next) := by
  refine .bind (Q := fun r left => left = due (given r)) ?_ fun r left hleft => ?_
  · refine owns_act fun s rest selects r s' hinv hp => ?_
    exact ⟨_, h s rest selects r s' (zero_add rest ▸ hinv) hp, rfl⟩
  · rw [hleft, hnext r]
    exact runAbandonments_finishes _

theorem pushTracked_finishes (chunk bytes : Nat) : Finishes cfg 0 (pushTracked chunk bytes) := by
  refine giving_finishes (fun _ => rfl) fun s tokens selects r s' hinv hp => ?_
  have ⟨hnew, hp⟩ := Option.ite_none_left_eq_some.mp hp
  cases hp
  exact hinv.push hnew bytes

theorem closeWithError_finishes (err : OutputError) : Finishes cfg 0 (closeWithError err) := by
  refine giving_finishes (fun _ => rfl) fun s tokens selects r s' hinv hp => ?_
  cases hp
  exact hinv.closeWithError err

theorem abandonDeferredObservations_finishes : Finishes cfg 0 abandonDeferredObservations := by
  refine giving_finishes (fun _ => rfl) fun s tokens selects r s' hinv hp => ?_
  cases hp
  exact hinv.abandonDeferred

theorem observing_finishes (chunk : Nat) : Finishes cfg {.observe chunk}
    (do act (.observe chunk); act (.finishObservation chunk)) := by
  refine .bind (Q := fun _ left => left = {.finish chunk}) ?_ fun _ left hleft => ?_
  · refine owns_act fun s rest selects r s' hinv hp => ?_
    cases hp
    exact ⟨_, hinv.observe, rfl⟩
  · subst hleft
    refine owns_act fun s rest selects r s' hinv hp => ?_
    cases hp
    exact ⟨0, (zero_add rest).symm ▸ hinv.finish, rfl⟩

theorem next_finishes : Finishes cfg 0 next := by
  refine .bind (Q := fun r left => left = toObserve r) ?_ fun r left hleft => ?_
  · refine owns_act fun s rest selects r s' hinv hp => ?_
    obtain ⟨p, hnext, hp⟩ := Option.map_eq_some_iff.mp hp
    cases hp
    exact ⟨_, (zero_add rest ▸ hinv).pull hnext, rfl⟩
  · subst hleft
    cases r
    case error => exact rfl
    case chunk chunk observing =>
      cases observing
      case false => exact rfl
      case true => exact observing_finishes chunk

theorem selectIDs_owns (entries : List (Streamkit.Entry Nat)) :
    Owns cfg (fun _ left => left = 0) 0 (selectIDs entries) := by
  induction entries
  case nil => exact rfl
  case cons hi =>
    refine .bind (Q := fun _ left => left = 0) ?_ fun _ left hleft => ?_
    · refine owns_act fun s rest selects r s' hinv hp => ?_
      cases hp
      exact ⟨0, hinv, rfl⟩
    · subst hleft
      exact hi.bind fun _ _ hleft => hleft

theorem discard_finishes : Finishes cfg 0 discard := by
  refine .bind (Q := fun _ left => left = 0) ?_ fun snapshot left hleft => ?_
  · refine owns_act fun s rest selects r s' hinv hp => ?_
    cases hp
    exact ⟨0, hinv, rfl⟩
  · subst hleft
    refine (selectIDs_owns snapshot).bind fun ids left hleft => ?_
    subst hleft
    refine giving_finishes (fun _ => rfl) fun s tokens selects r s' hinv hp => ?_
    cases hp
    exact hinv.remove ids

theorem observeOutput_finishes (chunk : Nat) : Finishes cfg 0 (observeOutput chunk) := by
  refine .bind (Q := fun r left => left = (match r with
    | some true => {.observe chunk}
    | _ => 0) ∧ r ≠ some false) ?_ fun r left ⟨hleft, hr⟩ => ?_
  · refine owns_act fun s rest selects r s' hinv hp => ?_
    cases hp
    have ⟨hinv', hr⟩ := (zero_add rest ▸ hinv).claim chunk
    exact ⟨_, hinv', rfl, hr⟩
  · subst hleft
    match r with
    | none => exact rfl
    | some false => contradiction
    | some true => exact observing_finishes chunk

theorem abandonOutputObservation_finishes (chunk : Nat) :
    Finishes cfg 0 (abandonOutputObservation chunk) := by
  refine .bind (Q := fun r left => left = due (if r then [chunk] else [])) ?_
    fun r left hleft => ?_
  · refine owns_act fun s rest selects r s' hinv hp => ?_
    cases hp
    exact ⟨_, (zero_add rest ▸ hinv).release, rfl⟩
  · subst hleft
    cases r
    case false => exact rfl
    case true => exact runAbandonments_finishes [chunk]

theorem call_finishes (op : Op) : Finishes cfg 0 op.call := by
  cases op
  case pushTracked chunk bytes => exact pushTracked_finishes chunk bytes
  case next => exact next_finishes
  case discard => exact discard_finishes
  case closeWithError err => exact closeWithError_finishes err
  case observeOutput chunk => exact observeOutput_finishes chunk
  case abandonOutputObservation chunk => exact abandonOutputObservation_finishes chunk
  case abandonDeferredObservations => exact abandonDeferredObservations_finishes
  case close =>
    refine owns_act fun s rest selects r s' hinv hp => ?_
    cases hp
    -- Closing is failing with the error there already is.
    have ⟨hqueue, hdeferred⟩ := Output.fail_queue cfg s.output s.output.failErr
    exact ⟨0, hinv.same (hinv.valid.fail s.output.failErr) hqueue hdeferred, rfl⟩
  case fail cause =>
    refine owns_act fun s rest selects r s' hinv hp => ?_
    cases hp
    have ⟨hqueue, hdeferred⟩ := Output.fail_queue cfg s.output cause
    exact ⟨0, hinv.same (hinv.valid.fail cause) hqueue hdeferred, rfl⟩

end Calls

abbrev Running := Threads.Config Act Reply State Op Unit

-- Every chunk that was pushed is observed or abandoned at most once, and exactly once when nothing
-- is left of the output and nobody works on it. Chunks are pulled in the order of their pushes,
-- queued bytes are counted and limited, and so are observers that are running or yet to come. The
-- output has settled when it is closed and nobody will be told about a delivery any more.
theorem deliveries_once {c : Running} (h : Threads.Reachable (system cfg) c) :
    (∀ k ∈ c.shared.accepted, c.shared.observed.count k + c.shared.abandoned.count k ≤ 1) ∧
    (c.shared.output.closed → c.shared.output.queue = [] → c.shared.output.deferred = [] →
      (∀ t ∈ c.threads, Threads.Done t) →
      ∀ k ∈ c.shared.accepted, c.shared.observed.count k + c.shared.abandoned.count k = 1) ∧
    c.shared.accepted.filter (· ∉ c.shared.discarded) =
      c.shared.pulled ++ c.shared.output.queue.map Entry.chunk ∧
    c.shared.output.queuedBytes = (c.shared.output.queue.map Entry.bytes).sum ∧
    (0 < cfg.maxBytes → (c.shared.output.queuedBytes : Int) ≤ cfg.maxBytes) ∧
    c.shared.output.observers = c.shared.output.deferred.length + c.shared.observing.length ∧
    ((∀ t ∈ c.threads, Threads.Done t) → c.shared.observing = []) ∧
    (c.shared.output.settled ↔ c.shared.output.closed ∧ c.shared.output.observers = 0 ∧
      (c.shared.output.observationAborted ∨ c.shared.output.queue = [])) := by
  have hentry (op : Op) (tokens : Multiset Token) (he : Entry op tokens) :
      Finishes cfg tokens ((system cfg).program op) := by
    rw [he]
    exact call_finishes op
  obtain ⟨held, hsound⟩ := h.sound (inv_init cfg) hentry fun _ _ => rfl
  have hinv := hsound.inv
  have hone (k : Nat) (hk : k ∈ c.shared.accepted) :
      (c.shared.accepted ++ c.shared.rejected).count k = 1 :=
    List.count_eq_one_of_mem hinv.fresh (List.mem_append_left _ hk)
  refine ⟨fun k hk => ?_, fun _ hqueue hdeferred hdone k hk => ?_, hinv.order,
    hinv.valid.queuedBytes,
    hinv.valid.limit, hinv.valid.observers, fun hdone => ?_, ?_⟩
  · have hc := hinv.outcome k
    rw [hone k hk] at hc
    omega
  · have hc := (hsound.quiet hdone).outcome k
    rw [hone k hk, Output.owed, hqueue, hdeferred] at hc
    simp only [List.countP_nil, count_zero] at hc
    omega
  · refine List.eq_nil_iff_forall_not_mem.mpr fun k hk => ?_
    have hc := (hsound.quiet hdone).observing k
    have hpos := List.count_pos_iff.mpr hk
    simp only [count_zero] at hc
    omega
  · rw [hinv.valid.settled]
    exact ⟨fun hs => ⟨hs.closed, hs.observers, hs.quiet⟩,
      fun h => ⟨h.left, h.right.left, h.right.right⟩⟩

namespace Sample

def config : OutputConfig where
  maxBytes := 4
  observe := false
  deferred := true

-- Two chunks are pushed and one of them is pulled and observed. The output is closed and then torn
-- down.
def delivery : List (Threads.Turn Op Bool) :=
  [.start (.pushTracked 7 2), .act 0 true, .start (.pushTracked 8 2), .act 1 true,
   .start .next, .act 2 true, .start .close, .act 3 true,
   .start (.observeOutput 7), .act 4 true, .act 4 true, .act 4 true,
   .start (.closeWithError .closedPipe), .act 5 true, .act 5 true,
   .start .next, .act 6 true]

end Sample

theorem deliveries_once_sample :
    ∃ c, Threads.Reachable (system Sample.config) c ∧ c.shared.accepted = [7, 8] ∧
      (∀ k ∈ c.shared.accepted, c.shared.observed.count k + c.shared.abandoned.count k = 1) ∧
      c.shared.output.settled := by
  have hrun : ((Threads.Config.mk (system Sample.config).init []).run (system Sample.config)
      (perform Sample.config) Sample.delivery).map (fun c => decide (c.shared.accepted = [7, 8] ∧
        c.shared.output.closed ∧ c.shared.output.queue = [] ∧ c.shared.output.deferred = [] ∧
        c.shared.output.observers = 0 ∧ ∀ t ∈ c.threads, Threads.Done t)) = some true := by
    decide +kernel
  obtain ⟨c, hc, hf⟩ := Threads.Reachable.exists_run (S := system Sample.config)
    (fun selects _ _ _ _ hp => ⟨selects, hp⟩) hrun
  obtain ⟨haccepted, hclosed, hqueue, hdeferred, hobservers, hdone⟩ := of_decide_eq_true hf
  have ⟨_, hexactly, _, _, _, _, _, hsettled⟩ := deliveries_once hc
  exact ⟨c, hc, haccepted, hexactly hclosed hqueue hdeferred hdone,
    hsettled.mpr ⟨hclosed, hobservers, .inr hqueue⟩⟩

end GizClaw.Streamkit.Delivery

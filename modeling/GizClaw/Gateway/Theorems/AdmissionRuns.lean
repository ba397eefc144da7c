import GizClaw.Gateway.Theorems.AdmissionSteps

-- The threads of a gateway, and what holds however they take turns.

namespace GizClaw.Gateway

open Interleaving (Program)
open Threads (on on_add on_singleton on_zero mem_on)

variable {cfg : Config} {s s' : State} {a q : Nat} {t : Token} {st : Stage}
variable {held rest : Multiset Token}

section Calls

theorem owns_releasePool (st st' : Stage) (ht : t.stage = some st) (ha : t.about = some a)
    (hphase : st'.phase = st.phase) (hslot : st'.slot = st.slot) (hst : st' ≠ .handled)
    (hdone : st ≠ .done)
    (hcustody : ∀ hands queued, st.Custody hands queued → st'.Custody hands queued) :
    Leaves cfg (st'.tokens a none) {t} (releasePool a) := by
  refine (owns_takeUpstream st st' ht ha hphase hslot hst hdone hcustody).bind
    fun u held hheld => ?_
  subst hheld
  cases u
  case none => exact add_zero _
  case some =>
    rw [hold, add_comm]
    exact (owns_release.frame_eq _).mono fun _ _ h => h.trans (zero_add _)

theorem owns_releasePending (hr : Releases a held) : Leaves cfg 0 held (releasePending a) := by
  refine (owns_release_waiting hr).bind fun swapped held hheld => ?_
  subst hheld
  cases swapped
  case false => exact rfl
  case true =>
    refine owns_unpend.bind fun _ held hheld => ?_
    subst hheld
    refine (owns_releasePool .emptying .removing rfl rfl rfl rfl nofun nofun
      fun _ _ => id).bind
      fun _ held hheld => ?_
    subst hheld
    exact owns_remove

theorem owns_promote :
    Owns cfg (fun promoted left => if promoted then ∃ u, left = {.session a u} else left = 0)
      {.custody a} (promote a) := by
  refine owns_promote_waiting.bind fun swapped held hheld => ?_
  subst hheld
  cases swapped
  case false => exact rfl
  case true =>
    refine owns_stopTimer.bind fun _ held hheld => ?_
    subst hheld
    exact owns_activate.bind fun _ held hheld => hheld

theorem owns_releaseActive (u : Option Nat) : Leaves cfg 0 {.session a u} (releaseActive a) := by
  refine (owns_release_promoted u).bind fun swapped held ⟨hswapped, hheld⟩ => ?_
  subst hswapped hheld
  refine owns_deactivate.bind fun _ held hheld => ?_
  subst hheld
  exact owns_releasePool .vacating .done rfl rfl rfl rfl nofun nofun
    fun _ _ hc => ⟨hc.left.le.trans (Nat.zero_le 1), hc.right⟩

theorem owns_enqueueAdmission :
    Owns cfg (fun queued left => left = if queued then 0 else {.custody a}) {.custody a}
      (enqueueAdmission a) := by
  have hready : Leaves cfg {.custody a} {.custody a} (act (.ready a)) := by
    refine owns_neutral (fun _ => rfl) fun s ch r s' hp => ?_
    cases hp
    exact ⟨s.loop, s.sessions, rfl⟩
  refine hready.bind fun ready held hheld => ?_
  subst hheld
  cases ready
  case false => exact rfl
  case true => exact owns_enqueue

theorem owns_resolve : Leaves cfg held held (act .resolve) := by
  refine owns_neutral (fun _ => rfl) fun s ch r s' hp => ?_
  cases hp
  exact ⟨s.loop, s.sessions, rfl⟩

theorem owns_acquireInOrder (pools : Nat) :
    Owns cfg (fun u left => left = hold u) 0 (acquireInOrder pools) := by
  induction pools
  case zero => exact rfl
  case succ hi =>
    refine owns_acquire.bind fun u held hheld => ?_
    subst hheld
    cases u
    case none => exact hi
    case some =>
      refine owns_resolve.bind fun route held hheld => ?_
      subst hheld
      cases route
      case here => exact rfl
      case failed =>
        refine owns_release.bind fun _ held hheld => ?_
        subst hheld
        exact hi
      case unconfigured => exact owns_release
      case elsewhere =>
        refine owns_release.bind fun _ held hheld => ?_
        subst hheld
        exact owns_acquire

theorem owns_acquirePeerUpstream :
    Owns cfg (fun u left => left = hold u) 0 (acquirePeerUpstream cfg) := by
  unfold acquirePeerUpstream
  split
  case isFalse => exact owns_acquireInOrder cfg.pools
  case isTrue =>
    refine owns_resolve.bind fun route held hheld => ?_
    subst hheld
    cases route
    case here | elsewhere => exact owns_acquire
    case unconfigured | failed => exact rfl

-- With an admission at hand.
theorem owns_acquirePeerUpstream_with (more : Multiset Token) :
    Owns cfg (fun u left => left = hold u + more) more (acquirePeerUpstream cfg) := by
  have hframe : Owns cfg _ (0 + more) _ := owns_acquirePeerUpstream.frame_eq more
  rwa [zero_add] at hframe

theorem owns_serveSignaling (clientKey : PublicKey) :
    Leaves cfg 0 0 (serveSignaling cfg clientKey) := by
  unfold serveSignaling
  split
  case isTrue => exact rfl
  case isFalse =>
    refine (owns_reserve clientKey).bind fun reserved held hheld => ?_
    subst hheld
    cases reserved
    case none => exact rfl
    case some a =>
      refine (owns_acquirePeerUpstream_with _).bind fun u held hheld => ?_
      subst hheld
      cases u
      case none =>
        exact zero_add (({.handler a none} : Multiset Token)) ▸ owns_releasePending (.handler none)
      case some q =>
        rw [add_comm]
        refine (owns_setUpstream .handled (.inl rfl)).bind fun _ held hheld => ?_
        subst hheld
        have hsignal : Leaves cfg {.handler a (some q)} {.handler a (some q)}
            (act .signal) := by
          refine owns_neutral (fun _ => rfl) fun s ch r s' hp => ?_
          cases hp
          exact ⟨s.loop, s.sessions, rfl⟩
        refine hsignal.bind fun signaled held hheld => ?_
        subst hheld
        cases signaled
        case false => exact owns_releasePending (.handler _)
        case true =>
          refine (owns_arm _).bind fun _ held hheld => ?_
          subst hheld
          refine owns_enqueueAdmission.bind fun queued held hheld => ?_
          subst hheld
          cases queued
          case false => exact owns_releasePending .custody
          case true => exact rfl

theorem owns_expire : Leaves cfg 0 0 (expire a) := by
  refine owns_fire.bind fun fired held hheld => ?_
  subst hheld
  cases fired
  case false => exact rfl
  case true => exact owns_releasePending .timer

theorem owns_claimAdmission (clientKey : PublicKey) (rounds : Nat) :
    Owns cfg (fun claimed left => match claimed with
      | some a => ∃ u, left = {.session a u}
      | none => left = 0) 0 (claimAdmission clientKey rounds) := by
  induction rounds
  case zero =>
    refine .act (fun _ => rfl) fun s rest r s' hinv ⟨ch, hp⟩ => ?_
    contradiction
  case succ hi =>
    refine (owns_claim clientKey).bind fun claimed held hheld => ?_
    subst hheld
    cases claimed
    case some =>
      refine owns_promote.bind fun promoted held hheld => ?_
      cases promoted
      case false =>
        obtain rfl : held = 0 := hheld
        exact hi
      case true => exact hheld
    case none =>
      have hwake : Leaves cfg 0 0 (act .wake) := by
        refine owns_neutral (fun _ => rfl) fun s ch r s' hp => ?_
        simp only [perform, Option.ite_none_left_eq_some, Option.some.injEq, Prod.mk.injEq] at hp
        exact ⟨s.loop, s.sessions, hp.right.right.symm⟩
      refine hwake.bind fun wake held hheld => ?_
      subst hheld
      cases wake
      case notified => exact hi
      case cancelled | timeout => exact rfl

-- The session goes over to a thread of its own.
theorem owns_startSession (u : Option Nat) :
    Leaves cfg 0 {.session a u} (act (.startSession a)) := by
  intro s rest r s' hinv ⟨ch, hp⟩
  cases hp
  refine ⟨0, [{.session a u}], .cons ⟨u, rfl⟩ .nil, ?_, rfl⟩
  simpa using hinv.congr s.loop (s.sessions + 1)

theorem owns_acceptOne (clientKey : PublicKey) (rounds : Nat) :
    Leaves cfg 0 0 (acceptOne clientKey rounds) := by
  have haccept : Leaves cfg 0 0 (act .accept) := by
    refine owns_neutral (fun _ => rfl) fun s ch r s' hp => ?_
    simp only [perform, Option.ite_none_right_eq_some, Option.some.injEq, Prod.mk.injEq] at hp
    exact ⟨.busy, s.sessions, hp.right.right.symm⟩
  have hnext : Leaves cfg 0 0 (act .acceptNext) := by
    refine owns_neutral (fun _ => rfl) fun s ch r s' hp => ?_
    cases hp
    exact ⟨.idle, s.sessions, rfl⟩
  have hdone : Leaves cfg 0 0 (act .acceptDone) := by
    refine owns_neutral (fun _ => rfl) fun s ch r s' hp => ?_
    cases hp
    exact ⟨.stopped, s.sessions, rfl⟩
  have herr : Leaves cfg 0 0 (act .contextErr) := by
    refine owns_neutral (fun _ => rfl) fun s ch r s' hp => ?_
    cases hp
    exact ⟨s.loop, s.sessions, rfl⟩
  refine haccept.bind fun accepted held hheld => ?_
  subst hheld
  cases accepted
  case false => exact hdone
  case true =>
    refine (owns_claimAdmission clientKey rounds).bind fun claimed held hheld => ?_
    cases claimed
    case some =>
      obtain ⟨u, rfl⟩ := hheld
      refine (owns_startSession u).bind fun _ held hheld => ?_
      subst hheld
      exact hnext
    case none =>
      obtain rfl : held = 0 := hheld
      refine herr.bind fun cancelled held hheld => ?_
      subst hheld
      cases cancelled
      case false => exact hnext
      case true => exact hdone

theorem owns_handleClient (attempts : Nat) (u : Option Nat) :
    Owns cfg (fun _ left => ∃ u, left = {.session a u}) {.session a u}
      (handleClient cfg a attempts) := by
  induction attempts generalizing u
  case zero => exact ⟨u, rfl⟩
  case succ hi =>
    have hopen : Leaves cfg {.session a u} {.session a u}
        (act .openSession) := by
      refine owns_neutral (fun _ => rfl) fun s ch r s' hp => ?_
      cases hp
      exact ⟨s.loop, s.sessions, rfl⟩
    refine hopen.bind fun attempt held hheld => ?_
    subst hheld
    cases attempt
    case opened | failed => exact ⟨u, rfl⟩
    case retry =>
      dsimp only
      split
      case isTrue => exact ⟨u, rfl⟩
      case isFalse =>
        refine (owns_releasePool .session .session rfl rfl rfl rfl nofun nofun
          fun _ _ => id).bind fun _ held hheld => ?_
        subst hheld
        refine (owns_acquirePeerUpstream_with _).bind fun u held hheld => ?_
        subst hheld
        cases u
        case none => exact ⟨none, zero_add _⟩
        case some q =>
          rw [add_comm]
          refine (owns_setUpstream .session (.inr rfl)).bind fun _ held hheld => ?_
          subst hheld
          exact hi (some q)

theorem owns_session (u : Option Nat) : Leaves cfg 0 {.session a u} (session cfg a) := by
  refine (owns_handleClient sessionMaxAttempts u).bind fun _ held hheld => ?_
  obtain ⟨u, rfl⟩ := hheld
  refine (owns_releaseActive u).bind fun _ held hheld => ?_
  subst hheld
  refine owns_neutral (fun _ => rfl) fun s ch r s' hp => ?_
  cases hp
  exact ⟨s.loop, s.sessions - 1, rfl⟩

theorem owns_releaseAll (admissions : List Nat) :
    Leaves cfg 0 (custodies admissions) (releaseAll admissions) := by
  induction admissions
  case nil => exact rfl
  case cons a admissions hi =>
    have hcons : custodies (a :: admissions) = {.custody a} + custodies admissions := rfl
    rw [hcons]
    refine ((owns_releasePending .custody).frame_eq _).bind fun _ held hheld => ?_
    subst hheld
    exact hi

theorem owns_close : Leaves cfg 0 0 close := by
  refine owns_closeOnce.bind fun first held hheld => ?_
  subst hheld
  cases first
  case false => exact rfl
  case true =>
    refine owns_cancel.bind fun _ held hheld => ?_
    subst hheld
    have hwait : Leaves cfg {.cancelled} {.cancelled}
        (act .awaitAcceptDone) := by
      refine owns_neutral (fun _ => rfl) fun s ch r s' hp => ?_
      simp only [perform, Option.ite_none_right_eq_some, Option.some.injEq, Prod.mk.injEq] at hp
      exact ⟨s.loop, s.sessions, hp.right.right.symm⟩
    refine hwait.bind fun _ held hheld => ?_
    subst hheld
    refine owns_drain.bind fun order held hheld => ?_
    subst hheld
    rw [add_comm]
    refine ((owns_releaseAll order).frame_eq _).bind fun _ held hheld => ?_
    subst hheld
    have hsessions : Leaves cfg {.drained} {.drained}
        (act .awaitSessions) := by
      refine owns_neutral (fun _ => rfl) fun s ch r s' hp => ?_
      simp only [perform, Option.ite_none_right_eq_some, Option.some.injEq, Prod.mk.injEq] at hp
      exact ⟨s.loop, s.sessions, hp.right.right.symm⟩
    refine hsessions.bind fun _ held hheld => ?_
    subst hheld
    exact owns_closed

theorem owns_call (op : Op) (tokens : Multiset Token) (h : Entry op tokens) :
    Leaves cfg 0 tokens (op.call cfg) := by
  cases op
  case session =>
    obtain ⟨u, rfl⟩ := h
    exact owns_session u
  all_goals obtain rfl : tokens = 0 := h
  case request clientKey => exact owns_serveSignaling clientKey
  case timer => exact owns_expire
  case accept clientKey rounds => exact owns_acceptOne clientKey rounds
  case close => exact owns_close

end Calls

abbrev Running := Threads.Config Act Reply State Op Unit

abbrev Reachable (cfg : Config) : Running → Prop :=
  Threads.Reachable (system cfg)

theorem Reachable.sound (h : Reachable cfg c) :
    ∃ held, Threads.Sound (system cfg) (Inv cfg) Entry c held := by
  refine Threads.Reachable.sound (inv_init cfg) owns_call (fun op he => ?_) h
  cases op
  case session => contradiction
  all_goals rfl

-- Where an admission is.
theorem Inv.admission (h : Inv cfg s tokens) (hx : x ∈ s.admissions) :
    x.promotions ≤ 1 ∧ x.returns = if x.slot = .free then 1 else 0 := by
  have ⟨a, hx⟩ := List.getElem?_of_mem hx
  have ⟨st, _, _, hfits, _⟩ := h.places.tidy a x hx
  exact ⟨hfits.promotions, hfits.slot ▸ hfits.returns⟩

theorem Inv.queued (h : Inv cfg s tokens) (ha : a ∈ s.queue) :
    ∃ x, s.admissions[a]? = some x ∧
      (x.phase = .waiting ∨ x.phase = .released ∧ x.removed = false) := by
  obtain ⟨x, hx⟩ := h.places.exists_of_mem ha
  obtain ⟨st, hands, _, hfits, hcustody⟩ := h.places.tidy a x hx
  have hpos := List.count_pos_iff.mpr ha
  refine ⟨x, hx, ?_⟩
  rw [hfits.phase]
  have hremoved := hfits.removed
  cases st <;> simp only [Stage.Custody] at hcustody
  case waiting => exact .inl rfl
  case unpending | emptying | removing => exact .inr ⟨rfl, hremoved (by rintro ⟨⟩)⟩
  all_goals omega

theorem Inv.released (h : Inv cfg s tokens) (q : Nat) :
    s.released.count q ≤ 1 ∧ (q ∈ s.released → q < s.acquired) := by
  have hq := h.upstreams q
  refine ⟨by split at hq <;> omega, fun hm => ?_⟩
  have hpos := List.count_pos_iff.mpr hm
  split at hq <;> omega

-- When nobody has anything left to do and the queue is empty, all admissions are over.
theorem Inv.over (h : Inv cfg s 0) (hqueue : s.queue = []) (hx : x ∈ s.admissions) :
    x.slot = .free ∧ x.burstSCTP = false ∧ x.releaseUpstream = none ∧ x.returns = 1 := by
  obtain ⟨a, hx⟩ := List.getElem?_of_mem hx
  obtain ⟨st, hands, heq, hfits, hcustody⟩ := h.places.tidy a x hx
  have hcard : 0 = (st.tokens a x.releaseUpstream).card + hands := by
    simpa using congrArg Multiset.card heq
  have hzero : st.tokens a x.releaseUpstream = 0 := Multiset.card_eq_zero.mp (by omega)
  have hhands : hands = 0 := by omega
  rw [hqueue, hhands] at hcustody
  cases st <;> simp only [Stage.tokens, Multiset.singleton_ne_zero] at hzero
  case waiting => cases hcustody
  case done => exact ⟨hfits.slot, hfits.burst rfl, hfits.emptied (.inr rfl), hfits.returns⟩

-- Counters are the numbers of slots that are held, within their limits. No admission is promoted
-- twice, gives back its slot twice or is queued once it was promoted or its release is over, and no
-- upstream is released twice. When the gateway has closed and every thread is done, callbacks of
-- timers included, everything was given back.
theorem admissions_accounted {c : Running} (h : Reachable cfg c) :
    c.shared.pending = c.shared.admissions.countP (·.slot = .pending) ∧
    c.shared.active = c.shared.admissions.countP (·.slot = .active) ∧
    c.shared.burstSCTP = c.shared.admissions.countP (·.burstSCTP) ∧
    c.shared.pending ≤ cfg.maxPendingHandshakes ∧
    c.shared.pending + c.shared.active ≤ cfg.maxSessions ∧
    c.shared.burstSCTP ≤ clientBurstSCTPLimit ∧
    (∀ x ∈ c.shared.admissions, x.promotions ≤ 1 ∧ x.returns = if x.slot = .free then 1 else 0) ∧
    (∀ q, c.shared.released.count q ≤ 1 ∧ (q ∈ c.shared.released → q < c.shared.acquired)) ∧
    (∀ a ∈ c.shared.queue, ∃ x, c.shared.admissions[a]? = some x ∧
      (x.phase = .waiting ∨ x.phase = .released ∧ x.removed = false)) ∧
    (c.shared.lifecycle = .closed → (∀ t ∈ c.threads, Threads.Done t) →
      c.shared.pending = 0 ∧ c.shared.active = 0 ∧ c.shared.burstSCTP = 0 ∧ c.shared.queue = [] ∧
      (∀ x ∈ c.shared.admissions, x.returns = 1) ∧
      ∀ q < c.shared.acquired, c.shared.released.count q = 1) := by
  have ⟨held, hsound⟩ := h.sound
  have hinv := hsound.inv
  have hcounts := hinv.counts
  refine ⟨hcounts.pending, hcounts.active, hcounts.burst, hcounts.pendingLimit, hcounts.limit,
    hcounts.burstLimit, fun x => hinv.admission, hinv.released, fun a => hinv.queued, ?_⟩
  intro hclosed hdone
  have hinv := hsound.quiet hdone
  have hqueue := (hinv.closing.drained (hinv.closing.closed hclosed)).right
  have hover := fun x => hinv.over hqueue (x := x)
  refine ⟨?_, ?_, ?_, hqueue, fun x hx => (hover x hx).right.right.right, fun q hq => ?_⟩
  · rw [hcounts.pending]
    exact List.countP_eq_zero.mpr fun x hx => by simp [(hover x hx).left]
  · rw [hcounts.active]
    exact List.countP_eq_zero.mpr fun x hx => by simp [(hover x hx).left]
  · rw [hcounts.burst]
    exact List.countP_eq_zero.mpr fun x hx => by simp [(hover x hx).right.left]
  · have hq' := hinv.upstreams q
    have hnone : c.shared.admissions.countP (·.releaseUpstream = some q) = 0 :=
      List.countP_eq_zero.mpr fun x hx => by simp [(hover x hx).right.right.left]
    rw [hnone, if_pos hq, Multiset.count_zero] at hq'
    exact hq'

namespace Sample

def config : Config where
  maxPendingHandshakes := 1
  maxSessions := 1
  routed := true
  pools := 1

-- A request is admitted and the gateway closes, before its timer has gone off.
def shutdown : List (Threads.Turn Op Choice) :=
  [.start (.request 1)] ++ List.replicate 8 (.act 0 {}) ++
  [.start (.accept 1 1)] ++ List.replicate 2 (.act 1 { able := false }) ++
  [.start .close] ++ List.replicate 3 (.act 2 {}) ++ [.act 2 { order := [0] }] ++
  List.replicate 7 (.act 2 {})

-- The timer goes off before the queue is emptied, and its callback is slow.
def slowTimer : List (Threads.Turn Op Choice) :=
  [.start (.request 1)] ++ List.replicate 8 (.act 0 {}) ++
  [.start (.accept 1 1)] ++ List.replicate 2 (.act 1 { able := false }) ++
  [.start (.timer 0)] ++ List.replicate 2 (.act 2 {}) ++
  [.start .close] ++ List.replicate 3 (.act 3 {}) ++ [.act 3 { order := [0] }] ++
  List.replicate 3 (.act 3 {})

end Sample

theorem Reachable.of_run (cfg : Config) {β : Type} {b : β} (f : Running → β)
    (t : List (Threads.Turn Op Choice))
    (h : ((Threads.Config.mk (system cfg).init []).run (system cfg) (perform cfg) t).map f =
    some b) : ∃ c, Reachable cfg c ∧ f c = b :=
  Threads.Reachable.exists_run (fun ch _ _ _ _ hp => ⟨ch, hp⟩) h

theorem admissions_accounted_sample :
    ∃ c, Reachable Sample.config c ∧ c.shared.admissions.length = 1 ∧
      c.shared.lifecycle = .closed ∧ (∀ t ∈ c.threads, Threads.Done t) ∧ c.shared.pending = 0 ∧
      c.shared.released.count 0 = 1 := by
  obtain ⟨c, hc, hrun⟩ := Reachable.of_run Sample.config (b := (1, Lifecycle.closed, 1, true))
    (fun c => (c.shared.admissions.length, c.shared.lifecycle, c.shared.acquired,
      decide (∀ t ∈ c.threads, Threads.Done t))) Sample.shutdown (by decide +kernel)
  simp only [Prod.mk.injEq, decide_eq_true_eq] at hrun
  obtain ⟨hlength, hclosed, hacquired, hdone⟩ := hrun
  have ⟨hpending, _, _, _, _, hreleased⟩ :=
    (admissions_accounted hc).right.right.right.right.right.right.right.right.right hclosed hdone
  exact ⟨c, hc, hlength, hclosed, hdone, hpending, hreleased 0 (by omega)⟩

-- The gateway has closed and nothing but the callback of a timer is still running, but the slot
-- that this is about to give back is still counted.
theorem pending_after_close :
    ∃ c, Reachable Sample.config c ∧ c.shared.lifecycle = .closed ∧
      (∀ t ∈ c.threads, (∃ a, t.fst = .timer a) ∨ Threads.Done t) ∧ c.shared.pending = 1 := by
  obtain ⟨c, hc, hrun⟩ := Reachable.of_run Sample.config (b := (Lifecycle.closed, true, 1))
    (fun c => (c.shared.lifecycle,
      decide (∀ t ∈ c.threads, t.fst = .timer 0 ∨ Threads.Done t), c.shared.pending))
    Sample.slowTimer (by decide +kernel)
  simp only [Prod.mk.injEq, decide_eq_true_eq] at hrun
  exact ⟨c, hc, hrun.left, fun t ht => (hrun.right.left t ht).imp_left (⟨0, ·⟩), hrun.right.right⟩

end GizClaw.Gateway

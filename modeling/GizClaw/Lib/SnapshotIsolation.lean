import GizClaw.Lib.Machine
import GizClaw.Lib.Transaction

-- Calls that run side by side under snapshot isolation. An attempt reads the state that was
-- committed when it began. It may commit unless a row that it has written was written by a commit
-- in the meantime (the first committer wins), and is repeated otherwise.

namespace Isolation

variable {κ ν ε ε' α C P T : Type}

-- A call may look at the committed state before its attempts. What it has found there is part of
-- the prepared call. Every attempt reads the clock for itself.
structure Protocol (κ ν ε α C P T : Type) where
  prepare : C → T → Rows κ ν → P
  prog : P → T → Prog κ ν ε α
  accepts : α → Bool

-- `start` counts the commits that the attempt can see.
structure Attempt (κ ν ε α P T : Type) where
  call : P
  now : T
  start : Nat
  tx : Tx κ ν
  rest : Prog κ ν ε α

inductive Session (κ ν ε α P T : Type) where
  | idle
  | ready (call : P)
  | running (attempt : Attempt κ ν ε α P T)

structure Commit (κ ν α P T : Type) where
  call : P
  now : T
  start : Nat
  result : α
  tx : Tx κ ν

structure System (κ ν ε α P T : Type) where
  db : Rows κ ν
  log : List (Commit κ ν α P T)
  sessions : Nat → Session κ ν ε α P T

inductive Action (C : Type) where
  | call (c : C)
  | start
  | advance
  | finish
  | stop

structure Event (C T : Type) where
  session : Nat
  now : T
  action : Action C

namespace System

def init (db : Rows κ ν) : System κ ν ε α P T where
  db := db
  log := []
  sessions := fun _ => .idle

def put (s : System κ ν ε α P T) (i : Nat) (x : Session κ ν ε α P T) : System κ ν ε α P T :=
  { s with sessions := Function.update s.sessions i x }

end System

section Steps

variable [LinearOrder κ] [DecidableEq κ]

-- One operation of the transaction.
def Attempt.advance (a : Attempt κ ν ε α P T) : Attempt κ ν ε α P T :=
  match a.rest with
  | .ret _ => a
  | .fail _ => a
  | .get k next => { a with rest := next (a.tx.view.lookup k) }
  | .scan start s next => { a with rest := next (a.tx.scan start s) }
  | .set k v next => { a with tx := a.tx.set k v, rest := next }
  | .delete k next => { a with tx := a.tx.delete k, rest := next }

namespace System

def conflicts (s : System κ ν ε α P T) (a : Attempt κ ν ε α P T) : Bool :=
  (s.log.drop a.start).any fun c => c.tx.written.any (· ∈ a.tx.written)

def finish (accepts : α → Bool) (s : System κ ν ε α P T) (i : Nat) (a : Attempt κ ν ε α P T) :
    System κ ν ε α P T :=
  match a.rest with
  | .ret r =>
    if accepts r then
      if s.conflicts a then s.put i (.ready a.call) else
        { s.put i .idle with
          db := a.tx.commit s.db
          log := s.log ++ [⟨a.call, a.now, a.start, r, a.tx⟩] }
    else
      s.put i .idle
  | .fail _ => s.put i .idle
  | _ => s

end System

-- Events that make no sense in the state of a session are ignored.
def Protocol.step (proto : Protocol κ ν ε α C P T) (event : Event C T) (s : System κ ν ε α P T) :
    System κ ν ε α P T :=
  match event.action, s.sessions event.session with
  | .call c, .idle => s.put event.session (.ready (proto.prepare c event.now s.db))
  | .start, .ready call =>
    s.put event.session
      (.running ⟨call, event.now, s.log.length, .start s.db, proto.prog call event.now⟩)
  | .advance, .running a => s.put event.session (.running a.advance)
  | .finish, .running a => s.finish proto.accepts event.session a
  | .stop, _ => s.put event.session .idle
  | _, _ => s

theorem Attempt.run_advance (a : Attempt κ ν ε α P T) :
    a.advance.rest.run a.advance.tx = a.rest.run a.tx := by
  unfold advance
  split <;> simp_all [Prog.run]

theorem Attempt.advance_eq (a : Attempt κ ν ε α P T) :
    a.advance.call = a.call ∧ a.advance.now = a.now ∧ a.advance.start = a.start := by
  unfold advance
  split <;> exact ⟨rfl, rfl, rfl⟩

end Steps

section Histories

variable [DecidableEq κ]

-- The state behind a number of commits.
def after (db : Rows κ ν) (log : List (Commit κ ν α P T)) : Rows κ ν :=
  log.foldl (fun db c => c.tx.commit db) db

@[simp]
theorem after_append (db : Rows κ ν) (log : List (Commit κ ν α P T)) (c : Commit κ ν α P T) :
    after db (log ++ [c]) = c.tx.commit (after db log) := by
  simp [after]

def Apart (W : List κ) (log : List (Commit κ ν α P T)) : Prop :=
  ∀ c ∈ log, ∀ k ∈ c.tx.written, k ∉ W

end Histories

-- What the author of a protocol has to come up with: an invariant of committed states, what is
-- known about a prepared call at a given time, and what an attempt that has written given rows
-- still knows about the state when it commits.
structure Reliance (κ ν P T : Type) where
  Good : Rows κ ν → Prop
  Clock : T → Prop
  Ready : T → P → Prop
  Stable : List κ → Rows κ ν → Rows κ ν → Prop

section Serial

variable [LinearOrder κ] [DecidableEq κ]
variable (proto : Protocol κ ν ε α C P T) (R : Reliance κ ν P T)

-- A commit of an attempt on `db₀` to the state `db₁`.
structure Ran (c : Commit κ ν α P T) (db₀ db₁ : Rows κ ν) : Prop where
  snapshot : R.Good db₀
  current : R.Good db₁
  clock : R.Clock c.now
  ready : R.Ready c.now c.call
  run : (proto.prog c.call c.now).run (.start db₀) = .ok (c.result, c.tx)
  accepts : proto.accepts c.result
  stable : R.Stable c.tx.written db₀ db₁

-- `serial call now db₀ db₁` is the call as it runs alone on `db₁`.
structure Sound [Preorder T] (serial : P → T → Rows κ ν → Rows κ ν → Except ε' α × Rows κ ν) :
    Prop where
  ready : ∀ c t db, R.Clock t → R.Good db → R.Ready t (proto.prepare c t db)
  mono : ∀ t t' call, t ≤ t' → R.Ready t call → R.Ready t' call
  refl : ∀ W db, R.Stable W db db
  commit : ∀ c W db₀ db₀' db₁, Ran proto R c db₀' db₁ → R.Stable W db₀ db₁ → Apart W [c] →
    R.Stable W db₀ (c.tx.commit db₁)
  serial : ∀ c db₀ db₁, Ran proto R c db₀ db₁ →
    serial c.call c.now db₀ db₁ = (.ok c.result, c.tx.commit db₁) ∧ R.Good (c.tx.commit db₁)

-- Every commit ran on an earlier state, and those in between have written other rows.
structure History (db : Rows κ ν) (log : List (Commit κ ν α P T)) : Prop where
  good : R.Good db
  ran : ∀ n c, log[n]? = some c → c.start ≤ n ∧
    Ran proto R c (after db (log.take c.start)) (after db (log.take n)) ∧
    Apart c.tx.written ((log.take n).drop c.start)

namespace History

variable {proto R} {db : Rows κ ν} {log : List (Commit κ ν α P T)}
variable [Preorder T] {serial : P → T → Rows κ ν → Rows κ ν → Except ε' α × Rows κ ν}

variable (hs : Sound proto R serial) (h : History proto R db log)
include hs h

theorem good_after (n : Nat) : R.Good (after db (log.take n)) := by
  induction n
  case zero => exact h.good
  case succ n hi =>
    cases hc : log[n]?
    case none =>
      rw [List.getElem?_eq_none_iff] at hc
      rwa [List.take_of_length_le (hc.trans n.le_succ), ← List.take_of_length_le hc]
    case some c =>
      rw [List.take_add_one, hc, Option.toList_some, after_append]
      exact (hs.serial _ _ _ (h.ran n c hc).right.left).right

-- What a transaction knows survives all commits that have written other rows.
theorem stable (hw : Apart W (log.drop m)) (hm : m ≤ n) (hn : n ≤ log.length) :
    R.Stable W (after db (log.take m)) (after db (log.take n)) := by
  induction n, hm using Nat.le_induction
  case base => exact hs.refl W _
  case succ n hm hi =>
    have hc : log[n]? = some log[n] := List.getElem?_eq_getElem hn
    rw [List.take_add_one, hc, Option.toList_some, after_append]
    refine hs.commit _ W _ _ _ (h.ran n _ hc).right.left (hi (Nat.le_of_lt hn)) ?_
    intro c hmem
    rw [List.mem_singleton.mp hmem]
    refine hw _ (List.mem_of_getElem? (i := n - m) ?_)
    rw [List.getElem?_drop, Nat.add_sub_cancel' hm, hc]

theorem append (hle : c.start ≤ log.length) (hclock : R.Clock c.now) (hready : R.Ready c.now c.call)
    (hrun : (proto.prog c.call c.now).run (.start (after db (log.take c.start))) =
      .ok (c.result, c.tx)) (ha : proto.accepts c.result)
    (hw : Apart c.tx.written (log.drop c.start)) : History proto R db (log ++ [c]) where
  good := h.good
  ran n c' hc := by
    by_cases hn : n < log.length
    case pos =>
      rw [List.getElem?_append_left hn] at hc
      have ⟨hle', hr, hw'⟩ := h.ran n c' hc
      rw [List.take_append_of_le_length hn.le, List.take_append_of_le_length (hle'.trans hn.le)]
      exact ⟨hle', hr, hw'⟩
    case neg =>
      have hlen : n = log.length := by
        have hlt := (List.getElem?_eq_some_iff.mp hc).choose
        rw [List.length_append, List.length_singleton] at hlt
        omega
      subst hlen
      rw [List.getElem?_concat_length] at hc
      cases hc
      rw [List.take_append_of_le_length le_rfl, List.take_append_of_le_length hle, List.take_length]
      have hst := h.stable hs hw hle le_rfl
      have hgood := h.good_after hs log.length
      rw [List.take_length] at hst hgood
      exact ⟨hle, ⟨h.good_after hs _, hgood, hclock, hready, hrun, ha, hst⟩, hw⟩

end History

section Runs

variable [Preorder T]

-- An attempt is the rest of a run that began on an earlier state.
def Session.Fits (db : Rows κ ν) (log : List (Commit κ ν α P T)) (t : T) :
    Session κ ν ε α P T → Prop
  | idle => True
  | ready call => R.Ready t call
  | running a =>
    a.now ≤ t ∧ R.Clock a.now ∧ R.Ready a.now a.call ∧ a.start ≤ log.length ∧
    (proto.prog a.call a.now).run (.start (after db (log.take a.start))) = a.rest.run a.tx

structure System.Fits (db : Rows κ ν) (t : T) (s : System κ ν ε α P T) : Prop where
  history : History proto R db s.log
  current : s.db = after db s.log
  sessions : ∀ i, (s.sessions i).Fits proto R db s.log t

variable {proto R} {db : Rows κ ν} {t : T} {s : System κ ν ε α P T}
variable {serial : P → T → Rows κ ν → Rows κ ν → Except ε' α × Rows κ ν}

theorem Session.Fits.append {x : Session κ ν ε α P T} (h : x.Fits proto R db log t)
    (c : Commit κ ν α P T) : x.Fits proto R db (log ++ [c]) t := by
  cases x
  case idle => trivial
  case ready => exact h
  case running =>
    have ⟨hnow, hclock, hready, hle, hrun⟩ := h
    refine ⟨hnow, hclock, hready, hle.trans (by simp), ?_⟩
    rwa [List.take_append_of_le_length hle]

theorem Session.Fits.mono (hs : Sound proto R serial) {x : Session κ ν ε α P T}
    (h : x.Fits proto R db log t) (ht : t ≤ t') : x.Fits proto R db log t' := by
  cases x
  case idle => trivial
  case ready call => exact hs.mono t t' call ht h
  case running => exact ⟨h.left.trans ht, h.right⟩

namespace System.Fits

theorem put (h : s.Fits proto R db t) (i : Nat)
    (hx : x.Fits proto R db s.log t) : (s.put i x).Fits proto R db t where
  history := h.history
  current := h.current
  sessions j := by
    unfold System.put
    by_cases hj : j = i
    case pos => simpa [hj] using hx
    case neg => simpa [hj] using h.sessions j

theorem good (hs : Sound proto R serial) (h : s.Fits proto R db t) : R.Good s.db := by
  have hg := h.history.good_after hs s.log.length
  rwa [List.take_length, ← h.current] at hg

theorem finish (hs : Sound proto R serial) (h : s.Fits proto R db t) {a : Attempt κ ν ε α P T}
    (ha : s.sessions i = .running a) : (s.finish proto.accepts i a).Fits proto R db t := by
  have hi := h.sessions i
  rw [ha] at hi
  have ⟨hnow, hclock, hready, hle, hrun⟩ := hi
  unfold System.finish
  split
  case h_2 => exact h.put i (x := .idle) trivial
  case h_3 => exact h
  case h_1 hr =>
    rw [hr] at hrun
    split_ifs with haccept hconf
    · exact h.put i (hs.mono _ _ _ hnow hready)
    · have hw : Apart a.tx.written (s.log.drop a.start) := by
        intro c hc k hk hm
        refine hconf (List.any_eq_true.mpr ⟨c, hc, List.any_eq_true.mpr ⟨k, hk, ?_⟩⟩)
        exact decide_eq_true hm
      have hidle := h.put i (x := .idle) trivial
      refine ⟨?history, ?current, fun j => (hidle.sessions j).append _⟩
      case history => exact h.history.append hs hle hclock hready hrun haccept hw
      case current => rw [after_append, h.current]
    · exact h.put i (x := .idle) trivial

theorem step (hs : Sound proto R serial) (h : s.Fits proto R db event.now)
    (hc : R.Clock event.now) : (proto.step event s).Fits proto R db event.now := by
  unfold Protocol.step
  split
  case h_1 c _ hx => exact h.put _ (hs.ready c _ _ hc (h.good hs))
  case h_2 _ hx =>
    have hi := h.sessions event.session
    rw [hx] at hi
    refine h.put _ ⟨le_rfl, hc, hi, le_rfl, ?_⟩
    rw [List.take_length, ← h.current]
  case h_3 a _ hx =>
    have hi := h.sessions event.session
    rw [hx] at hi
    have ⟨hcall, hnow, hstart⟩ := a.advance_eq
    refine h.put _ ?_
    simp only [Session.Fits, hcall, hnow, hstart, a.run_advance]
    exact hi
  case h_4 hx => exact h.finish hs hx
  case h_5 => exact h.put _ (x := .idle) trivial
  case h_6 => exact h

theorem init (h : R.Good db) (t : T) : (System.init db : System κ ν ε α P T).Fits proto R db t where
  history := ⟨h, by simp [System.init]⟩
  current := rfl
  sessions _ := trivial

theorem run (hs : Sound proto R serial) (h : R.Good db) {events : List (Event C T)}
    (ho : Machine.Ordered Event.now events) (hc : ∀ event ∈ events, R.Clock event.now)
    (ht : ∀ event ∈ events, event.now ≤ t) :
    (Machine.fold proto.step events (System.init db)).Fits proto R db t :=
  Machine.fold_timed proto.step (P := fun t s => s.Fits proto R db t)
    (fun _ _ hc h => h.step hs hc)
    (fun _ _ _ ht h => ⟨h.history, h.current, fun i => (h.sessions i).mono hs ht⟩)
    (init h) ho hc ht

-- The commits, one after the other, are the calls that run alone.
theorem serial_eq (hs : Sound proto R serial) (h : s.Fits proto R db t) (hc : s.log[n]? = some c) :
    serial c.call c.now (after db (s.log.take c.start)) (after db (s.log.take n)) =
      (.ok c.result, after db (s.log.take (n + 1))) := by
  rw [List.take_add_one, hc, Option.toList_some, after_append]
  exact (hs.serial _ _ _ (h.history.ran n c hc).right.left).left

end System.Fits

end Runs
end Serial
end Isolation

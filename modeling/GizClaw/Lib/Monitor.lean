import Mathlib

-- Calls on an object under one lock. A call runs in sections that hold the lock. Between two of
-- them it gives the lock back, and possibly waits until a section of another call wakes it.

namespace Monitor

-- How a section tells the calls that wait: not at all, any one of them, or all of them.
inductive Notice where
  | silent
  | one
  | all
  deriving DecidableEq

-- A condition variable loses a notice for which no call waits. A channel with one slot keeps it for
-- the next call that is about to wait, and a call gives the lock back before it receives.
inductive Kind where
  | condition
  | channel
  deriving DecidableEq

-- What is left of a call when its section ends.
inductive Outcome (κ ρ : Type) where
  | wait (rest : κ)
  | yield (rest : κ)
  | done (result : ρ)

inductive Phase (κ ρ : Type) where
  | started (rest : κ)
  | parking (rest : κ)
  | waiting (rest : κ)
  | woken (rest : κ)
  | done (result : ρ)
  deriving DecidableEq

structure Call (κ ρ : Type) where
  op : κ
  phase : Phase κ ρ
  deriving DecidableEq

structure System (σ κ ρ : Type) where
  shared : σ
  kept : Bool := false
  closed : Bool := false
  calls : List (Call κ ρ) := []

-- The section of a call, which knows its number.
abbrev Body (σ κ ρ : Type) := Nat → κ → σ → σ × Notice × Outcome κ ρ

variable {σ κ ρ : Type}

def Outcome.phase (kind : Kind) : Outcome κ ρ → Phase κ ρ
  | .wait rest =>
    match kind with
    | .condition => .waiting rest
    | .channel => .parking rest
  | .yield rest => .started rest
  | .done result => .done result

-- What a call runs next.
def Phase.ready : Phase κ ρ → Option κ
  | .started rest | .woken rest => some rest
  | _ => none

def Phase.isWaiting : Phase κ ρ → Bool
  | .waiting _ => true
  | _ => false

def Phase.wake : Phase κ ρ → Phase κ ρ
  | .waiting rest => .woken rest
  | phase => phase

def Call.wake (c : Call κ ρ) : Call κ ρ :=
  { c with phase := c.phase.wake }

inductive Notify (kind : Kind) : Notice → System σ κ ρ → System σ κ ρ → Prop
  | silent {s : System σ κ ρ} : Notify kind .silent s s
  | one {s : System σ κ ρ} {j : Nat} {c : Call κ ρ} (hj : s.calls[j]? = some c)
    (hw : c.phase.isWaiting) : Notify kind .one s { s with calls := s.calls.set j c.wake }
  | unheard {s : System σ κ ρ} (hn : ∀ c ∈ s.calls, ¬c.phase.isWaiting) :
    Notify kind .one s { s with kept := s.kept || kind = .channel }
  | all {s : System σ κ ρ} :
    Notify kind .all s { s with closed := true, calls := s.calls.map Call.wake }

section Steps

variable (kind : Kind) (body : Body σ κ ρ) (guard : System σ κ ρ → κ → Bool)

-- Only sections that the guard admits are run.
inductive Step : System σ κ ρ → System σ κ ρ → Prop
  | call {s : System σ κ ρ} (op : κ) :
    Step s { s with calls := s.calls ++ [⟨op, .started op⟩] }
  | run {s s' : System σ κ ρ} {i : Nat} {c : Call κ ρ} {rest : κ} {shared : σ} {notice : Notice}
    {outcome : Outcome κ ρ} (hi : s.calls[i]? = some c) (hr : c.phase.ready = some rest)
    (hg : guard s rest) (hb : body i rest s.shared = (shared, notice, outcome))
    (hn : Notify kind notice { s with shared } s') :
    Step s { s' with calls := s'.calls.set i { c with phase := outcome.phase kind } }
  | receive {s : System σ κ ρ} {i : Nat} {c : Call κ ρ} {rest : κ} (hi : s.calls[i]? = some c)
    (hp : c.phase = .parking rest) (hk : s.kept ∨ s.closed) :
    Step s { s with kept := false, calls := s.calls.set i { c with phase := .woken rest } }
  | park {s : System σ κ ρ} {i : Nat} {c : Call κ ρ} {rest : κ} (hi : s.calls[i]? = some c)
    (hp : c.phase = .parking rest) (hk : ¬s.kept ∧ ¬s.closed) :
    Step s { s with calls := s.calls.set i { c with phase := .waiting rest } }

inductive Reachable (shared : σ) : System σ κ ρ → Prop
  | init : Reachable shared { shared }
  | step {s s' : System σ κ ρ} (hr : Reachable shared s) (hs : Step kind body guard s s') :
    Reachable shared s'

end Steps

section Schedules

-- One step, and the call that a notice wakes.
inductive Move (κ : Type) where
  | call (op : κ)
  | run (i : Nat) (wakes : Option Nat)
  | park (i : Nat)

variable (kind : Kind) (body : Body σ κ ρ) (guard : System σ κ ρ → κ → Bool)

def System.notify (s : System σ κ ρ) (wakes : Option Nat) : Notice → Option (System σ κ ρ)
  | .silent => some s
  | .all => some { s with closed := true, calls := s.calls.map Call.wake }
  | .one =>
    match wakes with
    | none =>
      if s.calls.all fun c => !c.phase.isWaiting then
        some { s with kept := s.kept || kind = .channel }
      else
        none
    | some j =>
      match s.calls[j]? with
      | some c =>
        if c.phase.isWaiting then some { s with calls := s.calls.set j c.wake } else none
      | none => none

def System.move (s : System σ κ ρ) : Move κ → Option (System σ κ ρ)
  | .call op => some { s with calls := s.calls ++ [⟨op, .started op⟩] }
  | .run i wakes => do
    let c ← s.calls[i]?
    let rest ← c.phase.ready
    if guard s rest then
      let (shared, notice, outcome) := body i rest s.shared
      let s' ← System.notify kind { s with shared } wakes notice
      return { s' with calls := s'.calls.set i { c with phase := outcome.phase kind } }
    else
      none
  | .park i => do
    let c ← s.calls[i]?
    match c.phase with
    | .parking rest =>
      if s.kept ∨ s.closed then
        return { s with kept := false, calls := s.calls.set i { c with phase := .woken rest } }
      else
        return { s with calls := s.calls.set i { c with phase := .waiting rest } }
    | _ => none

def System.play (s : System σ κ ρ) (moves : List (Move κ)) : Option (System σ κ ρ) :=
  moves.foldlM (System.move kind body guard) s

variable {kind body guard} {s s' : System σ κ ρ}

theorem notify_of_notify (h : s.notify kind wakes notice = some s') : Notify kind notice s s' := by
  cases notice
  case silent => cases h; exact .silent
  case all => cases h; exact .all
  case one =>
    simp only [System.notify] at h
    split at h
    case h_1 =>
      have ⟨hn, h⟩ := Option.ite_none_right_eq_some.mp h
      cases h
      exact .unheard fun c hc => by simpa using List.all_eq_true.mp hn c hc
    case h_2 =>
      split at h
      case h_2 => contradiction
      case h_1 hj =>
        have ⟨hw, h⟩ := Option.ite_none_right_eq_some.mp h
        cases h; exact .one hj hw

theorem step_of_move (h : s.move kind body guard move = some s') : Step kind body guard s s' := by
  cases move
  case call op => cases h; exact .call op
  case run =>
    simp only [System.move, Option.bind_eq_bind, Option.bind_eq_some_iff] at h
    have ⟨c, hi, rest, hr, h⟩ := h
    have ⟨hg, h⟩ := Option.ite_none_right_eq_some.mp h
    have ⟨s₁, hn, h⟩ := Option.bind_eq_some_iff.mp h
    cases h
    exact .run hi hr hg rfl (notify_of_notify hn)
  case park =>
    simp only [System.move, Option.bind_eq_bind, Option.bind_eq_some_iff] at h
    have ⟨c, hi, h⟩ := h
    split at h
    case h_2 => contradiction
    case h_1 hp =>
      split at h
      case isTrue hk => cases h; exact .receive hi hp hk
      case isFalse hk => cases h; exact .park hi hp (not_or.mp hk)

theorem Reachable.play (h : Reachable kind body guard shared s)
    (hp : s.play kind body guard moves = some s') : Reachable kind body guard shared s' := by
  induction moves generalizing s
  case nil => cases hp; exact h
  case cons hi =>
    simp only [System.play, List.foldlM_cons, Option.bind_eq_bind, Option.bind_eq_some_iff] at hp
    have ⟨s₁, hm, hp⟩ := hp
    exact hi (h.step (step_of_move hm)) hp

-- What a schedule shows of the state that it ends in is true of a reachable state.
theorem Reachable.exists_play {α : Type} {f : System σ κ ρ → α} {a : α} (moves : List (Move κ))
    (h : (System.play kind body guard { shared } moves).map f = some a) :
    ∃ s, Reachable kind body guard shared s ∧ f s = a := by
  have ⟨s, hs, ha⟩ := Option.map_eq_some_iff.mp h
  exact ⟨s, Reachable.init.play hs, ha⟩

end Schedules

section Progress

-- How far a call is, whether it waits or not: what is left of it, or its result.
@[local simp]
def Phase.progress : Phase κ ρ → κ ⊕ ρ
  | .started rest | .parking rest | .waiting rest | .woken rest => .inl rest
  | .done result => .inr result

def Outcome.progress : Outcome κ ρ → κ ⊕ ρ
  | .wait rest | .yield rest => .inl rest
  | .done result => .inr result

def Call.progress (c : Call κ ρ) : κ × (κ ⊕ ρ) :=
  (c.op, c.phase.progress)

@[local simp]
def System.progress (s : System σ κ ρ) : List (κ × (κ ⊕ ρ)) :=
  s.calls.map Call.progress

@[simp]
theorem Outcome.progress_phase (kind : Kind) (outcome : Outcome κ ρ) :
    (outcome.phase kind).progress = outcome.progress := by
  cases outcome <;> cases kind <;> rfl

@[simp]
theorem Call.progress_wake (c : Call κ ρ) : c.wake.progress = c.progress := by
  obtain ⟨op, phase⟩ := c
  cases phase <;> rfl

theorem Phase.progress_of_ready {phase : Phase κ ρ} (h : phase.ready = some rest) :
    phase.progress = .inl rest := by
  cases phase <;> simp_all [Phase.ready]

variable {kind : Kind} {body : Body σ κ ρ} {guard : System σ κ ρ → κ → Bool}
  {s s' : System σ κ ρ}

theorem set_progress (hi : s.calls[i]? = some c) (hc : c'.progress = c.progress) :
    (s.calls.set i c').map Call.progress = s.calls.map Call.progress := by
  have hself : (s.calls.map Call.progress)[i]? = some c.progress := by
    rw [List.getElem?_map, hi]
    rfl
  have ⟨_, he⟩ := List.getElem?_eq_some_iff.mp hself
  rw [List.map_set, hc, ← he, List.set_getElem_self]

theorem Notify.progress (h : Notify kind notice s s') :
    s'.shared = s.shared ∧ s'.progress = s.progress := by
  cases h
  case silent | unheard => exact ⟨rfl, rfl⟩
  case one c hw hj => exact ⟨rfl, set_progress hj (Call.progress_wake c)⟩
  case all => exact ⟨rfl, by simp [Function.comp_def]⟩

-- What depends only on the shared state and on how far the calls are is kept when it is kept by the
-- start of a call and by each section.
theorem Reachable.progress {I : σ → List (κ × (κ ⊕ ρ)) → Prop} (hinit : I shared [])
    (hcall : ∀ s l op, I s l → I s (l ++ [(op, .inl op)]))
    (hrun : ∀ (s : System σ κ ρ) i op rest shared' notice outcome,
      I s.shared s.progress → s.progress[i]? = some (op, .inl rest) → guard s rest →
      body i rest s.shared = (shared', notice, outcome) →
      I shared' (s.progress.set i (op, outcome.progress)))
    (h : Reachable kind body guard shared s) : I s.shared s.progress := by
  induction h
  case init => exact hinit
  case step s s' _ hs hi =>
    cases hs
    case call op =>
      have := hcall _ _ op hi
      simpa [Call.progress] using this
    case run i c rest shared' notice outcome hc hr hg hb hn =>
      have hp : s.progress[i]? = some (c.op, .inl rest) := by
        rw [System.progress, List.getElem?_map, hc, ← Phase.progress_of_ready hr]
        rfl
      have ⟨hs, hl⟩ := hn.progress
      have hrun := hrun s i c.op rest shared' notice outcome hi hp hg hb
      rw [System.progress, List.map_set, ← System.progress, hs, hl, Call.progress,
        Outcome.progress_phase]
      exact hrun
    case receive i c rest hc hp hk | park i c rest hc hp hk =>
      rwa [System.progress, set_progress hc (by simp [Call.progress, hp])]

end Progress

section Simulation

variable {σ' κ' : Type}
variable {K : κ → κ' → Prop} {p : Phase κ ρ} {p' : Phase κ' ρ}

def Phase.result : Phase κ ρ → Option ρ
  | .done result => some result
  | _ => none

-- What the calls that are over returned.
def System.results (s : System σ κ ρ) : List (Option ρ) :=
  s.calls.map (·.phase.result)

-- Outcomes and phases of the same form, with the rests of calls in a relation.
inductive Outcome.Rel (K : κ → κ' → Prop) : Outcome κ ρ → Outcome κ' ρ → Prop
  | wait {k : κ} {k' : κ'} (h : K k k') : Rel K (.wait k) (.wait k')
  | yield {k : κ} {k' : κ'} (h : K k k') : Rel K (.yield k) (.yield k')
  | done (r : ρ) : Rel K (.done r) (.done r)

inductive Phase.Rel (K : κ → κ' → Prop) : Phase κ ρ → Phase κ' ρ → Prop
  | started {k : κ} {k' : κ'} (h : K k k') : Rel K (.started k) (.started k')
  | parking {k : κ} {k' : κ'} (h : K k k') : Rel K (.parking k) (.parking k')
  | waiting {k : κ} {k' : κ'} (h : K k k') : Rel K (.waiting k) (.waiting k')
  | woken {k : κ} {k' : κ'} (h : K k k') : Rel K (.woken k) (.woken k')
  | done (r : ρ) : Rel K (.done r) (.done r)

-- The sections of related calls from related states notify alike and lead to related states, in
-- which all calls that were related are still related.
structure Simulation (body : Body σ κ ρ) (body' : Body σ' κ' ρ) (start : κ → κ')
    (R : σ → σ' → Prop) (K : σ → σ' → κ → κ' → Prop) : Prop where
  start : ∀ {s s'} op, R s s' → K s s' op (start op)
  run : ∀ {i s s' k k'}, R s s' → K s s' k k' →
    (body i k s).snd.fst = (body' i k' s').snd.fst ∧ R (body i k s).fst (body' i k' s').fst ∧
      (body i k s).snd.snd.Rel (K (body i k s).fst (body' i k' s').fst) (body' i k' s').snd.snd
  keep : ∀ {i s s' k k' m m'}, R s s' → K s s' k k' → K s s' m m' →
    K (body i k s).fst (body' i k' s').fst m m'

structure Call.Rel (start : κ → κ') (K : κ → κ' → Prop) (c : Call κ ρ) (c' : Call κ' ρ) : Prop where
  op : c'.op = start c.op
  phase : c.phase.Rel K c'.phase

structure System.Rel (start : κ → κ') (R : σ → σ' → Prop) (K : σ → σ' → κ → κ' → Prop)
    (c : System σ κ ρ) (c' : System σ' κ' ρ) : Prop where
  shared : R c.shared c'.shared
  kept : c.kept = c'.kept
  closed : c.closed = c'.closed
  calls : List.Forall₂ (Call.Rel start (K c.shared c'.shared)) c.calls c'.calls

section

variable (h : p.Rel K p')
include h

theorem Phase.Rel.mono (hkl : ∀ k k', K k k' → L k k') : p.Rel L p' := by
  cases h
  case started h => exact .started (hkl _ _ h)
  case parking h => exact .parking (hkl _ _ h)
  case waiting h => exact .waiting (hkl _ _ h)
  case woken h => exact .woken (hkl _ _ h)
  case done r => exact .done r

theorem Phase.Rel.wake : p.wake.Rel K p'.wake := by
  cases h
  case started h => exact .started h
  case parking h => exact .parking h
  case waiting h | woken h => exact .woken h
  case done r => exact .done r

theorem Phase.Rel.isWaiting : p.isWaiting = p'.isWaiting := by
  cases h <;> rfl

theorem Phase.Rel.result : p'.result = p.result := by
  cases h <;> rfl

theorem Phase.Rel.ready (hk : p.ready = some k) : ∃ k', p'.ready = some k' ∧ K k k' := by
  cases h <;> simp only [Phase.ready, Option.some.injEq, reduceCtorEq] at hk
  case started h | woken h => exact ⟨_, rfl, hk ▸ h⟩

theorem Phase.Rel.of_parking (hp : p = .parking k) : ∃ k', p' = .parking k' ∧ K k k' := by
  subst hp
  cases h
  case parking h => exact ⟨_, rfl, h⟩

end

theorem Outcome.Rel.phase {o : Outcome κ ρ} (h : o.Rel K o') (kind : Kind) :
    (o.phase kind).Rel K (o'.phase kind) := by
  cases h
  case wait h =>
    cases kind
    case condition => exact .waiting h
    case channel => exact .parking h
  case yield h => exact .started h
  case done r => exact .done r

theorem forall₂_getElem? {α β : Type} {R : α → β → Prop} {l : List α} {l' : List β}
    (h : List.Forall₂ R l l') {i : Nat} {a : α} (ha : l[i]? = some a) :
    ∃ b, l'[i]? = some b ∧ R a b := by
  induction h generalizing i
  case nil => simp at ha
  case cons hr _ hi =>
    cases i
    case zero => exact ⟨_, rfl, by simpa [← Option.some.inj ha] using hr⟩
    case succ => exact hi ha

theorem forall₂_set {α β : Type} {R : α → β → Prop} {l : List α} {l' : List β}
    (h : List.Forall₂ R l l') (i : Nat) {a : α} {b : β} (hab : R a b) :
    List.Forall₂ R (l.set i a) (l'.set i b) := by
  induction h generalizing i
  case nil => exact .nil
  case cons hr h hi =>
    cases i
    case zero => exact .cons hab h
    case succ i => exact .cons hr (hi i)

variable {body : Body σ κ ρ} {body' : Body σ' κ' ρ} {start : κ → κ'} {R : σ → σ' → Prop}
  {K : σ → σ' → κ → κ' → Prop} {kind : Kind} {c c₁ : System σ κ ρ} {c' : System σ' κ' ρ}

theorem System.Rel.notify {notice : Notice} (h : c.Rel start R K c')
    (hn : Notify kind notice c c₁) : ∃ c₁', Notify kind notice c' c₁' ∧ c₁.Rel start R K c₁' := by
  have ⟨hs, hk, hc, hcalls⟩ := h
  cases hn
  case silent => exact ⟨c', .silent, h⟩
  case one j x hw hj =>
    have ⟨x', hj', hx⟩ := forall₂_getElem? hcalls hj
    exact ⟨_, .one hj' (hx.phase.isWaiting ▸ hw), hs, hk, hc,
      forall₂_set hcalls j ⟨hx.op, hx.phase.wake⟩⟩
  case unheard hn =>
    refine ⟨_, .unheard fun x' hx' => ?_, hs, by simp [hk], hc, hcalls⟩
    have ⟨i, hi⟩ := List.getElem?_of_mem hx'
    have ⟨x, hx, hr⟩ := forall₂_getElem? hcalls.flip hi
    exact hr.phase.isWaiting ▸ hn x (List.mem_of_getElem? hx)
  case all =>
    refine ⟨_, .all, hs, hk, rfl, ?_⟩
    rw [List.forall₂_map_left_iff, List.forall₂_map_right_iff]
    exact hcalls.imp fun x x' hx => ⟨hx.op, hx.phase.wake⟩

theorem System.Rel.ops (h : c.Rel start R K c') :
    c'.calls.map Call.op = c.calls.map fun x => start x.op := by
  rw [← List.forall₂_eq_eq_eq, List.forall₂_map_left_iff, List.forall₂_map_right_iff]
  exact h.calls.flip.imp fun x' x hx => hx.op

theorem System.Rel.results (h : c.Rel start R K c') : c'.results = c.results := by
  rw [System.results, System.results, ← List.forall₂_eq_eq_eq, List.forall₂_map_left_iff,
    List.forall₂_map_right_iff]
  exact h.calls.flip.imp fun x' x hx => hx.phase.result

theorem Simulation.step (hsim : Simulation body body' start R K) (h : c.Rel start R K c')
    (hs : Step kind body (fun _ _ => true) c c₁) :
    ∃ c₁', Step kind body' (fun _ _ => true) c' c₁' ∧ c₁.Rel start R K c₁' := by
  have ⟨hR, hk, hc, hcalls⟩ := h
  cases hs
  case call op =>
    exact ⟨_, .call (start op), hR, hk, hc,
      List.rel_append hcalls (.cons ⟨rfl, .started (hsim.start op hR)⟩ .nil)⟩
  case run s₁ i x k shared notice outcome hi hr _ hb hn =>
    have ⟨x', hi', hx⟩ := forall₂_getElem? hcalls hi
    have ⟨k', hr', hkk⟩ := hx.phase.ready hr
    have ⟨hnotice, hshared, hout⟩ := hsim.run (i := i) hR hkk
    rw [hb] at hnotice hshared hout
    have hrel : System.Rel start R K { c with shared }
        { c' with shared := (body' i k' c'.shared).fst } := by
      refine ⟨hshared, hk, hc, hcalls.imp fun y y' hy => ⟨hy.op, hy.phase.mono fun m m' hm => ?_⟩⟩
      have := hsim.keep (i := i) hR hkk hm
      rwa [hb] at this
    have ⟨c₂, hn', hrel'⟩ := hrel.notify hn
    have ⟨hsh, hsh'⟩ : s₁.shared = shared ∧ c₂.shared = (body' i k' c'.shared).fst :=
      ⟨hn.progress.left, hn'.progress.left⟩
    refine ⟨_, .run hi' hr' rfl rfl (by rwa [← hnotice]), hrel'.shared, hrel'.kept, hrel'.closed,
      forall₂_set hrel'.calls i ⟨hx.op, ?_⟩⟩
    rw [hsh, hsh']
    exact hout.phase kind
  case receive i x k hi hp hk' =>
    have ⟨x', hi', hx⟩ := forall₂_getElem? hcalls hi
    have ⟨k', hp', hkk⟩ := hx.phase.of_parking hp
    exact ⟨_, .receive hi' hp' (by rwa [← hk, ← hc]), hR, rfl, hc,
      forall₂_set hcalls i ⟨hx.op, .woken hkk⟩⟩
  case park i x k hi hp hk' =>
    have ⟨x', hi', hx⟩ := forall₂_getElem? hcalls hi
    have ⟨k', hp', hkk⟩ := hx.phase.of_parking hp
    exact ⟨_, .park hi' hp' (by rwa [← hk, ← hc]), hR, hk, hc,
      forall₂_set hcalls i ⟨hx.op, .waiting hkk⟩⟩

theorem Simulation.reachable (hsim : Simulation body body' start R K) (h₀ : R s₀ s₀')
    (h : Reachable kind body (fun _ _ => true) s₀ c) :
    ∃ c', Reachable kind body' (fun _ _ => true) s₀' c' ∧ c.Rel start R K c' := by
  induction h
  case init => exact ⟨_, .init, h₀, rfl, rfl, .nil⟩
  case step hs hi =>
    have ⟨c', hr', hrel⟩ := hi
    have ⟨c₁', hs', hrel'⟩ := hsim.step hrel hs
    exact ⟨c₁', hr'.step hs', hrel'⟩

end Simulation

end Monitor

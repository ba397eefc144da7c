import GizClaw.Lib.Monitor
import GizClaw.Lib.Tally

-- When notices reach the calls that wait. A call may only wait while it is not free to go on, and a
-- state is stuck when all calls wait and one of them is free.

namespace Monitor

open List (mem_of_getElem? mem_or_eq_of_mem_set)

variable {σ κ ρ : Type}

attribute [local simp] Phase.isWaiting Outcome.phase Phase.wake Phase.ready

@[local simp]
def Phase.isWoken : Phase κ ρ → Bool
  | .woken _ => true
  | _ => false

-- The call waits, or is about to.
@[local simp]
def Phase.isParked : Phase κ ρ → Bool
  | .parking _ | .waiting _ => true
  | _ => false

def Phase.isOver : Phase κ ρ → Bool
  | .done _ => true
  | _ => false

def Outcome.isWait : Outcome κ ρ → Bool
  | .wait _ => true
  | _ => false

@[local simp]
def Call.waitsFor (p : κ → Bool) (x : Call κ ρ) : Bool :=
  match x.phase with
  | .waiting rest => p rest
  | _ => false

@[local simp]
def Call.wokenFor (p : κ → Bool) (x : Call κ ρ) : Bool :=
  match x.phase with
  | .woken rest => p rest
  | _ => false

def System.stuck (free : κ → σ → Bool) (c : System σ κ ρ) : Bool :=
  (c.calls.all fun x => x.phase.isOver || x.phase.isWaiting) &&
    c.calls.any (Call.waitsFor (free · c.shared))

theorem Call.waitsFor_iff {x : Call κ ρ} : x.waitsFor p ↔ ∃ k, x.phase = .waiting k ∧ p k := by
  obtain ⟨_, phase⟩ := x
  cases phase <;> simp

theorem Phase.isWaiting_iff {p : Phase κ ρ} : p.isWaiting ↔ ∃ k, p = .waiting k := by
  cases p <;> simp

theorem Phase.not_isWaiting_of_ready {p : Phase κ ρ} (h : p.ready = some k) : ¬p.isWaiting := by
  cases p <;> simp_all

theorem Call.wake_waiting {x : Call κ ρ} (h : x.phase = .waiting k) :
    x.wake = { x with phase := .woken k } := by
  rw [Call.wake, h]
  rfl

theorem Call.of_wake {x : Call κ ρ} (h : x.wake.phase = .waiting k ∨ x.wake.phase = .woken k) :
    x.phase = .waiting k ∨ x.phase = .woken k := by
  obtain ⟨_, phase⟩ := x
  cases phase <;> simp_all [Call.wake]

theorem Call.parking_of_wake {x : Call κ ρ} (h : x.wake.phase = .parking k) :
    x.phase = .parking k := by
  obtain ⟨_, phase⟩ := x
  cases phase <;> simp_all [Call.wake]

theorem Call.isWaiting_of_waitsFor {x : Call κ ρ} (h : x.waitsFor p) : x.phase.isWaiting :=
  have ⟨k, hk, _⟩ := Call.waitsFor_iff.mp h
  Phase.isWaiting_iff.mpr ⟨k, hk⟩

theorem Phase.eq_woken {p : Phase κ ρ} (hr : p.ready = some k) (hw : p.isWoken) : p = .woken k := by
  cases p <;> simp_all

theorem Outcome.eq_wait {outcome : Outcome κ ρ}
    (h : outcome.phase .condition = .waiting k ∨ outcome.phase .condition = .woken k) :
    outcome = .wait k := by
  cases outcome <;> simp_all

theorem Call.not_isWaiting_wake (x : Call κ ρ) : ¬x.wake.phase.isWaiting := by
  obtain ⟨_, phase⟩ := x
  cases phase <;> simp [Call.wake]

section Phases

variable {body : Body σ κ ρ} {guard : System σ κ ρ → κ → Bool} {shared : σ} {c c' : System σ κ ρ}
  {notice : Notice}

theorem Notify.not_parking (h : Notify .condition notice c c')
    (hc : ∀ x ∈ c.calls, ∀ k, x.phase ≠ .parking k) :
    ∀ x ∈ c'.calls, ∀ k, x.phase ≠ .parking k := by
  intro x hx k hk
  cases h
  case silent | unheard => exact hc x hx k hk
  case one y _ hj =>
    rcases mem_or_eq_of_mem_set hx with hx | rfl
    case inl => exact hc x hx k hk
    case inr => exact hc y (mem_of_getElem? hj) k (Call.parking_of_wake hk)
  case all =>
    have ⟨y, hy, hyx⟩ := List.mem_map.mp hx
    exact hc y hy k (Call.parking_of_wake (hyx ▸ hk))

theorem Reachable.not_parking (h : Reachable .condition body guard shared c) :
    ∀ x ∈ c.calls, ∀ k, x.phase ≠ .parking k := by
  induction h
  case init => nofun
  case step _ hs hi =>
    cases hs
    case call =>
      exact List.forall_mem_append.mpr ⟨hi, List.forall_mem_singleton.mpr fun _ => nofun⟩
    case run outcome _ _ _ _ hn =>
      intro z hz
      rcases mem_or_eq_of_mem_set hz with hz | rfl
      case inl => exact hn.not_parking hi z hz
      case inr => cases outcome <;> simp
    case receive i x k hx hp _ | park i x k hx hp _ =>
      exact absurd hp (hi x (mem_of_getElem? hx) k)

-- A call that is woken is not stuck.
theorem not_stuck_of_woken
    (h : ∀ x ∈ c.calls, x.waitsFor (free · c.shared) → ∃ y ∈ c.calls, y.phase.isWoken) :
    ¬c.stuck free := by
  intro hs
  have ⟨hall, hany⟩ := Bool.and_eq_true_iff.mp hs
  have ⟨x, hx, hw⟩ := List.any_eq_true.mp hany
  have ⟨y, hy, hyw⟩ := h x hx hw
  have := List.all_eq_true.mp hall y hy
  obtain ⟨_, phase⟩ := y
  cases phase <;> simp_all [Phase.isOver]

end Phases

section Condition

variable (waits : κ → Bool) (free : κ → σ → Bool) (closed : σ → Bool)

-- While a call waits that is free to go on, another one is woken.
structure Awake (c : System σ κ ρ) : Prop where
  waits : ∀ x ∈ c.calls, ∀ k, x.phase = .waiting k ∨ x.phase = .woken k → waits k
  closed : closed c.shared → ∀ x ∈ c.calls, ¬x.phase.isWaiting
  woken : ∀ x ∈ c.calls, x.waitsFor (free · c.shared) → ∃ y ∈ c.calls, y.phase.isWoken

-- What a section has to do for this. It may only be silent when it frees no call that waits and,
-- as it could be the one that was woken, when no call is free after it.
structure Passes (c : System σ κ ρ) (k : κ) (s' : σ) (notice : Notice) (outcome : Outcome κ ρ) :
    Prop where
  wait : ∀ k', outcome = .wait k' → waits k' ∧ ¬free k' s' ∧ ¬closed s'
  close : closed s' → closed c.shared ∨ notice = .all
  silent : notice = .silent → ∀ x ∈ c.calls, x.waitsFor (free · s') → x.waitsFor (free · c.shared)
  pass : notice = .silent → waits k → ¬closed c.shared → ∀ x ∈ c.calls, ¬x.waitsFor (free · s')

-- The calls after the notices of a section, and before the call itself goes on.
structure Notified (c : System σ κ ρ) (i : Nat) : Prop where
  waits : ∀ x ∈ c.calls, ∀ k, x.phase = .waiting k ∨ x.phase = .woken k → waits k
  closed : closed c.shared → ∀ x ∈ c.calls, ¬x.phase.isWaiting
  woken : ∀ x ∈ c.calls, x.waitsFor (free · c.shared) →
    ∃ j y, j ≠ i ∧ c.calls[j]? = some y ∧ y.phase.isWoken

variable {waits free closed} {c c₁ : System σ κ ρ} {i : Nat} {x : Call κ ρ} {k : κ} {s' : σ}
  {notice : Notice} {outcome : Outcome κ ρ}

section

variable (h : Awake waits free closed c) (hi : c.calls[i]? = some x) (hr : x.phase.ready = some k)
  (hp : Passes waits free closed c k s' notice outcome)
  (hn : Notify .condition notice { c with shared := s' } c₁)
include h hi hr hp hn

theorem Awake.notified : Notified waits free closed c₁ i := by
  cases hn
  case silent =>
    have hclosed : closed s' → closed c.shared := fun hc => (hp.close hc).resolve_right nofun
    refine ⟨h.waits, fun hc => h.closed (hclosed hc), fun z hz hw => ?_⟩
    -- The call that was woken is another one: after the section of a call that was woken, no call
    -- that waits is free.
    have ⟨y, hy, hyw⟩ := h.woken z hz (hp.silent rfl z hz hw)
    have ⟨j, hj⟩ := List.getElem?_of_mem hy
    refine ⟨j, y, fun hji => ?_, hj, hyw⟩
    obtain rfl : x = y := Option.some.inj (hi.symm.trans (hji ▸ hj))
    have hk := h.waits x hy k (.inr (Phase.eq_woken hr hyw))
    have hnc : ¬closed c.shared := fun hc => h.closed hc z hz (Call.isWaiting_of_waitsFor hw)
    exact hp.pass rfl hk hnc z hz hw
  case one j y hw hj =>
    have ⟨m, hm⟩ := Phase.isWaiting_iff.mp hw
    have hij : j ≠ i := by
      rintro rfl
      obtain rfl : x = y := Option.some.inj (hi.symm.trans hj)
      exact Phase.not_isWaiting_of_ready hr hw
    have hmem : y ∈ c.calls := mem_of_getElem? hj
    refine ⟨fun z hz k' hk' => ?_, fun hc => ?_, fun z hz _ => ⟨j, y.wake, hij, ?_, ?_⟩⟩
    · rcases mem_or_eq_of_mem_set hz with hz | rfl
      case inl => exact h.waits z hz k' hk'
      case inr =>
        rw [Call.wake_waiting hm] at hk'
        obtain rfl : m = k' := by simpa using hk'
        exact h.waits y hmem m (.inl hm)
    · exact absurd hw (h.closed ((hp.close hc).resolve_right nofun) y hmem)
    · exact List.getElem?_set_self (List.getElem?_eq_some_iff.mp hj).choose
    · rw [Call.wake_waiting hm]
      rfl
  case unheard hn =>
    refine ⟨h.waits, fun _ => hn, fun z hz hw => ?_⟩
    exact absurd (Call.isWaiting_of_waitsFor hw) (hn z hz)
  case all =>
    have hnot : ∀ z ∈ c.calls.map Call.wake, ¬z.phase.isWaiting := fun z hz => by
      have ⟨w, _, hz⟩ := List.mem_map.mp hz
      exact hz ▸ Call.not_isWaiting_wake w
    refine ⟨fun z hz k' hk' => ?_, fun _ => hnot, fun z hz hw => ?_⟩
    · have ⟨w, hw, hz⟩ := List.mem_map.mp hz
      exact h.waits w hw k' (Call.of_wake (hz ▸ hk'))
    · exact absurd (Call.isWaiting_of_waitsFor hw) (hnot z hz)

theorem Awake.run :
    Awake waits free closed
      { c₁ with calls := c₁.calls.set i { x with phase := outcome.phase .condition } } := by
  have hd := h.notified hi hr hp hn
  have hs : c₁.shared = s' := hn.progress.left
  refine ⟨fun z hz k' hk' => ?_, fun hc z hz hw => ?_, fun z hz hw => ?_⟩
  all_goals rcases mem_or_eq_of_mem_set hz with hz | rfl
  · exact hd.waits z hz k' hk'
  · exact (hp.wait k' (Outcome.eq_wait hk')).left
  · exact hd.closed hc z hz hw
  · have ⟨k', hk'⟩ := Phase.isWaiting_iff.mp hw
    exact (hp.wait k' (Outcome.eq_wait (.inl hk'))).right.right (hs ▸ hc)
  · have ⟨j, y, hij, hj, hy⟩ := hd.woken z hz hw
    exact ⟨y, mem_of_getElem? (by rwa [List.getElem?_set_ne hij.symm]), hy⟩
  · have ⟨k', hk', hf⟩ := Call.waitsFor_iff.mp hw
    exact absurd (hs ▸ hf) (hp.wait k' (Outcome.eq_wait (.inl hk'))).right.left

end

theorem Awake.call (h : Awake waits free closed c) (op : κ) :
    Awake waits free closed { c with calls := c.calls ++ [⟨op, .started op⟩] } := by
  refine ⟨fun z hz k' hk' => ?_, fun hc z hz hw => ?_, fun z hz hw => ?_⟩
  all_goals rcases List.mem_append.mp hz with hz | hz
  · exact h.waits z hz k' hk'
  · simp [List.mem_singleton.mp hz] at hk'
  · exact h.closed hc z hz hw
  · simp [List.mem_singleton.mp hz] at hw
  · have ⟨y, hy, hyw⟩ := h.woken z hz hw
    exact ⟨y, List.mem_append_left _ hy, hyw⟩
  · simp [List.mem_singleton.mp hz] at hw

theorem Reachable.awake {guard : System σ κ ρ → κ → Bool} {I : σ → Prop} (hI : I shared)
    (hp : ∀ (c : System σ κ ρ) i k s' notice outcome, I c.shared → guard c k →
      body i k c.shared = (s', notice, outcome) →
      I s' ∧ Passes waits free closed c k s' notice outcome)
    (h : Reachable .condition body guard shared c) : I c.shared ∧ Awake waits free closed c := by
  induction h
  case init => exact ⟨hI, nofun, nofun, nofun⟩
  case step c c' hreach hs hi =>
    have ⟨hI, h⟩ := hi
    cases hs
    case call op => exact ⟨hI, h.call op⟩
    case run i x k s' notice outcome hi hr hg hb hn =>
      have ⟨hI', hp⟩ := hp c i k s' notice outcome hI hg hb
      exact ⟨hn.progress.left ▸ hI', h.run hi hr hp hn⟩
    case receive i x k hi hx _ | park i x k hi hx _ =>
      exact absurd hx (hreach.not_parking x (mem_of_getElem? hi) k)

theorem Awake.not_stuck (h : Awake waits free closed c) : ¬c.stuck free :=
  not_stuck_of_woken h.woken

end Condition

section Units

-- Some of the calls that wait take one unit each, and whoever adds a unit tells one call. The
-- others are told together.
variable (takes : κ → Bool) (units : σ → Nat) (closed : σ → Bool) (free : κ → σ → Bool)

-- While a call waits for a unit, others are woken for all the units that are there.
structure Served (c : System σ κ ρ) : Prop where
  units : ∀ x ∈ c.calls, x.waitsFor takes →
    ¬closed c.shared ∧ units c.shared ≤ c.calls.countP (Call.wokenFor takes)
  others : ∀ x ∈ c.calls, ∀ k, x.phase = .waiting k → ¬takes k → ¬free k c.shared

-- What a section has to do for this. It may only tell one call when no other kind of call waits
-- next to those that take a unit.
structure Serves (c : System σ κ ρ) (k : κ) (s' : σ) (notice : Notice) (outcome : Outcome κ ρ) :
    Prop where
  wait : ∀ k', outcome = .wait k' →
    (takes k' → ¬closed s' ∧ units s' = 0) ∧ (¬takes k' → ¬free k' s')
  shuts : notice ≠ .all → closed s' → closed c.shared
  others : notice ≠ .all → ∀ k', ¬takes k' → free k' s' → free k' c.shared
  silent : notice = .silent → ¬closed s' →
    units s' = 0 ∨ units s' + (if takes k then 1 else 0) ≤ units c.shared
  one : notice = .one → ¬takes k ∧ units s' ≤ units c.shared + 1 ∧
    ((∃ x ∈ c.calls, x.waitsFor takes) → ∀ x ∈ c.calls, x.phase.isWaiting → x.waitsFor takes)

variable {takes units closed free} {c c₁ : System σ κ ρ} {i : Nat} {x : Call κ ρ} {k : κ} {s' : σ}
  {notice : Notice} {outcome : Outcome κ ρ}

theorem Call.countP_set {l : List (Call κ ρ)} (h : l[i]? = some x) :
    (l.set i w).countP p + (if p x then 1 else 0) = l.countP p + (if p w then 1 else 0) := by
  rw [List.set_eq_modify]
  exact Tally.countP_modify h

-- A call that still waits has waited before, and none of the calls that were told does.
theorem Notify.waited (h : Notify .condition notice { c with shared := s' } c₁) (hz : z ∈ c₁.calls)
    (hw : z.phase.isWaiting) : z ∈ c.calls ∧ notice ≠ .all := by
  cases h
  case silent => exact ⟨hz, nofun⟩
  case unheard hn => exact absurd hw (hn z hz)
  case one y _ hj =>
    rcases mem_or_eq_of_mem_set hz with hz | rfl
    case inl => exact ⟨hz, nofun⟩
    case inr => exact absurd hw (Call.not_isWaiting_wake y)
  case all =>
    have ⟨y, _, hy⟩ := List.mem_map.mp hz
    exact absurd hw (hy ▸ Call.not_isWaiting_wake y)

section

variable (h : Served takes units closed free c) (hi : c.calls[i]? = some x)
  (hr : x.phase.ready = some k) (hp : Serves takes units closed free c k s' notice outcome)
  (hn : Notify .condition notice { c with shared := s' } c₁)
include h hi hr hp hn

theorem Served.enough {z : Call κ ρ} (hz : z ∈ c₁.calls) (hw : z.waitsFor takes) :
    ¬closed s' ∧ units s' ≤ (c₁.calls.set i { x with phase := outcome.phase .condition }).countP
      (Call.wokenFor takes) := by
  have hwait := Call.isWaiting_of_waitsFor hw
  obtain ⟨hzc, hall⟩ := hn.waited hz hwait
  obtain ⟨hopen, hunits⟩ := h.units z hzc hw
  have hopen' : ¬closed s' := fun hc => hopen (hp.shuts hall hc)
  refine ⟨hopen', ?_⟩
  have hidle : Call.wokenFor takes { x with phase := outcome.phase .condition } = false := by
    cases outcome <;> rfl
  have hmine : Call.wokenFor takes x → takes k := by
    intro hx
    obtain ⟨_, phase⟩ := x
    cases phase <;> simp_all
  cases hn
  all_goals dsimp only
  case all => contradiction
  case unheard hn => exact absurd hwait (hn z hz)
  case silent =>
    have hcount := Call.countP_set (p := Call.wokenFor takes)
      (w := { x with phase := outcome.phase .condition }) hi
    rw [hidle] at hcount
    have hsilent := hp.silent rfl hopen'
    by_cases hx : Call.wokenFor takes x
    case pos =>
      simp only [hx, hmine hx, Bool.false_eq_true, ↓reduceIte] at hcount hsilent
      omega
    case neg =>
      simp only [hx, Bool.false_eq_true, ↓reduceIte] at hcount
      split at hsilent <;> omega
  case one j y hy hj =>
    obtain ⟨hk, hle, hsame⟩ := hp.one rfl
    have hij : j ≠ i := by
      rintro rfl
      obtain rfl : x = y := Option.some.inj (hi.symm.trans hj)
      exact Phase.not_isWaiting_of_ready hr hy
    have hi' : (c.calls.set j y.wake)[i]? = some x := by rwa [List.getElem?_set_ne hij]
    -- The call that is told waits for a unit, like the one that still waits.
    obtain ⟨m, hm, htakes⟩ :=
      Call.waitsFor_iff.mp (hsame ⟨z, hzc, hw⟩ y (mem_of_getElem? hj) hy)
    have hwoken : Call.wokenFor takes y.wake := by
      rw [Call.wake_waiting hm]
      exact htakes
    have hnot : Call.wokenFor takes y = false := by simp [hm]
    have hx : Call.wokenFor takes x = false := Bool.eq_false_iff.mpr fun hx => hk (hmine hx)
    have hcount := Call.countP_set (p := Call.wokenFor takes) (w := y.wake) hj
    have hcount' := Call.countP_set (p := Call.wokenFor takes)
      (w := { x with phase := outcome.phase .condition }) hi'
    simp only [hwoken, hnot, hx, hidle, Bool.false_eq_true, ↓reduceIte] at hcount hcount'
    omega

theorem Served.run :
    Served takes units closed free
      { c₁ with calls := c₁.calls.set i { x with phase := outcome.phase .condition } } := by
  have hs : c₁.shared = s' := hn.progress.left
  refine ⟨fun z hz hw => ?_, fun z hz m hm htakes => ?_⟩
  all_goals
    rw [hs]
    rcases mem_or_eq_of_mem_set hz with hz | rfl
  · exact h.enough hi hr hp hn hz hw
  · have ⟨m, hm, htakes⟩ := Call.waitsFor_iff.mp hw
    have ⟨hopen, hnone⟩ := (hp.wait m (Outcome.eq_wait (.inl hm))).left htakes
    exact ⟨hopen, hnone ▸ Nat.zero_le _⟩
  · have ⟨hzc, hall⟩ := hn.waited hz (Phase.isWaiting_iff.mpr ⟨m, hm⟩)
    exact fun hf => h.others z hzc m hm htakes (hp.others hall m htakes hf)
  · exact (hp.wait m (Outcome.eq_wait (.inl hm))).right htakes

end

theorem Reachable.served {guard : System σ κ ρ → κ → Bool}
    (hp : ∀ (c : System σ κ ρ) i k s' notice outcome, guard c k →
      body i k c.shared = (s', notice, outcome) →
      Serves takes units closed free c k s' notice outcome)
    (h : Reachable .condition body guard shared c) : Served takes units closed free c := by
  induction h
  case init => exact ⟨nofun, nofun⟩
  case step c c' hreach hs hi =>
    cases hs
    case call =>
      refine ⟨fun z hz hw => ?_, fun z hz k hk => ?_⟩
      all_goals rcases List.mem_append.mp hz with hz | hz
      · have ⟨hopen, hunits⟩ := hi.units z hz hw
        exact ⟨hopen, hunits.trans (by simp)⟩
      · simp [List.mem_singleton.mp hz] at hw
      · exact hi.others z hz k hk
      · simp [List.mem_singleton.mp hz] at hk
    case run i x k s' notice outcome hx hr hg hb hn =>
      exact hi.run hx hr (hp c i k s' notice outcome hg hb) hn
    case receive i x k hi hx _ | park i x k hi hx _ =>
      exact absurd hx (hreach.not_parking x (mem_of_getElem? hi) k)

theorem Served.not_stuck (h : Served takes units closed free c)
    (hfree : ∀ k s, takes k → free k s → closed s ∨ 0 < units s) : ¬c.stuck free := by
  refine not_stuck_of_woken fun z hz hw => ?_
  have ⟨k, hk, hf⟩ := Call.waitsFor_iff.mp hw
  by_cases htakes : takes k
  case neg => exact absurd hf (h.others z hz k hk htakes)
  case pos =>
    have ⟨hopen, hunits⟩ := h.units z hz (Call.waitsFor_iff.mpr ⟨k, hk, htakes⟩)
    have hpos := (hfree k c.shared htakes hf).resolve_left hopen
    have ⟨y, hy, hyw⟩ := List.countP_pos_iff.mp (hpos.trans_le hunits)
    refine ⟨y, hy, ?_⟩
    obtain ⟨_, phase⟩ := y
    cases phase <;> simp_all

end Units

section Channel

theorem getElem?_set_cases {α : Type} {l : List α} {a y : α}
    (h : (l.set i a)[j]? = some y) : j = i ∧ y = a ∨ j ≠ i ∧ l[j]? = some y := by
  by_cases hij : i = j
  case pos =>
    subst hij
    have hlt : i < l.length := by simpa using (List.getElem?_eq_some_iff.mp h).choose
    rw [List.getElem?_set_self hlt] at h
    exact .inl ⟨rfl, (Option.some.inj h).symm⟩
  case neg => exact .inr ⟨Ne.symm hij, by rwa [List.getElem?_set_ne hij] at h⟩

-- All calls that wait wait for the same.
variable (ready : σ → Bool)

-- Only one call waits or is about to. When it need not, a notice is there for it.
structure Lone (c : System σ κ ρ) : Prop where
  unique : ∀ (i j : Nat) x y, c.calls[i]? = some x → x.phase.isParked → c.calls[j]? = some y →
    y.phase.isParked → i = j
  closed : ∀ x ∈ c.calls, x.phase.isWaiting → ¬c.kept ∧ ¬c.closed
  told : ∀ x ∈ c.calls, x.phase.isParked → ready c.shared → c.kept ∨ c.closed

-- A section may only wait while no other call does, and it does not make the others ready silently.
structure Tells (c : System σ κ ρ) (s' : σ) (notice : Notice) (outcome : Outcome κ ρ) : Prop where
  wait : outcome.isWait → notice = .silent ∧ ¬ready s' ∧ ∀ x ∈ c.calls, ¬x.phase.isParked
  silent : notice = .silent → (∃ x ∈ c.calls, x.phase.isParked) → ready s' → ready c.shared

variable {ready} {c c₁ : System σ κ ρ} {i : Nat} {x : Call κ ρ} {k : κ} {s' : σ}
  {notice : Notice} {outcome : Outcome κ ρ}

theorem Phase.isParked_of_isWaiting {p : Phase κ ρ} (h : p.isWaiting) : p.isParked := by
  cases p <;> simp_all

theorem Call.isParked_of_wake (h : x.wake.phase.isParked) : x.phase.isParked := by
  obtain ⟨_, phase⟩ := x
  cases phase <;> simp_all [Call.wake]

theorem Lone.of_none (h : ∀ x ∈ c.calls, ¬x.phase.isParked) : Lone ready c where
  unique _ _ x _ hx hp _ _ := absurd hp (h x (mem_of_getElem? hx))
  closed x hx hw := absurd (Phase.isParked_of_isWaiting hw) (h x hx)
  told x hx hp _ := absurd hp (h x hx)

section

variable (h : Lone ready c)
include h

-- The only call that waits goes on.
theorem Lone.leave (hi : c.calls[i]? = some x) (hp : x.phase.isParked) {x' : Call κ ρ}
    (hx' : ¬x'.phase.isParked) {kept closed : Bool} :
    Lone ready { shared, kept, closed, calls := c.calls.set i x' } := by
  refine .of_none fun y hy hyp => ?_
  have ⟨j, hj⟩ := List.getElem?_of_mem hy
  rcases getElem?_set_cases hj with ⟨_, rfl⟩ | ⟨hne, hj⟩
  case inl => exact hx' hyp
  case inr => exact hne (h.unique j i y x hj hyp hi hp)

theorem Lone.frame {calls : List (Call κ ρ)}
    (hold : ∀ (j : Nat) y, calls[j]? = some y → y.phase.isParked → c.calls[j]? = some y) :
    Lone ready { c with calls } := by
  have hmem : ∀ y ∈ calls, y.phase.isParked → y ∈ c.calls := by
    intro y hy hp
    have ⟨j, hj⟩ := List.getElem?_of_mem hy
    exact mem_of_getElem? (hold j y hj hp)
  refine ⟨fun j m y z hj hy hm hz => ?_, fun y hy hw => ?_, fun y hy hp => ?_⟩
  · exact h.unique j m y z (hold j y hj hy) hy (hold m z hm hz) hz
  · exact h.closed y (hmem y hy (Phase.isParked_of_isWaiting hw)) hw
  · exact h.told y (hmem y hy hp) hp

theorem Lone.set {x' : Call κ ρ} (hx' : ¬x'.phase.isParked) :
    Lone ready { c with calls := c.calls.set i x' } := by
  refine h.frame fun j y hj hy => ?_
  rcases getElem?_set_cases hj with ⟨_, rfl⟩ | ⟨_, hj⟩
  case inl => exact absurd hy hx'
  case inr => exact hj

theorem Lone.call (op : κ) : Lone ready { c with calls := c.calls ++ [⟨op, .started op⟩] } := by
  refine h.frame fun j y hj hy => ?_
  rcases Nat.lt_or_ge j c.calls.length with hlt | hge
  case inl => rwa [List.getElem?_append_left hlt] at hj
  case inr =>
    rw [List.getElem?_append_right hge] at hj
    have := List.mem_singleton.mp (mem_of_getElem? hj)
    simp [this] at hy

theorem Lone.notified (ht : Tells ready c s' notice outcome)
    (hn : Notify .channel notice { c with shared := s' } c₁) : Lone ready c₁ := by
  cases hn
  case silent =>
    exact ⟨h.unique, h.closed, fun y hy hp hr => h.told y hy hp (ht.silent rfl ⟨y, hy, hp⟩ hr)⟩
  case one hw hj =>
    have ⟨m, hm⟩ := Phase.isWaiting_iff.mp hw
    refine h.leave hj (Phase.isParked_of_isWaiting hw) ?_
    simp [Call.wake_waiting hm]
  case unheard hn =>
    exact ⟨h.unique, fun y hy hw => absurd hw (hn y hy), fun _ _ _ _ => .inl (by simp)⟩
  case all =>
    refine ⟨fun j m y z hj hy hm hz => ?_, fun y hy hw => ?_, fun _ _ _ _ => .inr rfl⟩
    · simp only [List.getElem?_map, Option.map_eq_some_iff] at hj hm
      obtain ⟨y₀, hj, rfl⟩ := hj
      obtain ⟨z₀, hm, rfl⟩ := hm
      exact h.unique j m y₀ z₀ hj (Call.isParked_of_wake hy) hm (Call.isParked_of_wake hz)
    · obtain ⟨y₀, _, rfl⟩ := List.mem_map.mp hy
      exact absurd hw (Call.not_isWaiting_wake y₀)

theorem Lone.run (ht : Tells ready c s' notice outcome)
    (hn : Notify .channel notice { c with shared := s' } c₁) :
    Lone ready
      { c₁ with calls := c₁.calls.set i { x with phase := outcome.phase .channel } } := by
  by_cases hw : outcome.isWait
  case neg =>
    refine (h.notified ht hn).set ?_
    cases outcome <;> simp_all [Outcome.isWait]
  case pos =>
    have ⟨hs, hr, hnone⟩ := ht.wait hw
    subst hs
    cases hn
    -- The call is the only one, and it does not wait yet.
    have hold : ∀ (j : Nat) y,
        (c.calls.set i { x with phase := outcome.phase .channel })[j]? = some y →
        y.phase.isParked → j = i ∧ y.phase = outcome.phase .channel := by
      intro j y hj hy
      rcases getElem?_set_cases hj with ⟨hji, rfl⟩ | ⟨_, hj⟩
      case inl => exact ⟨hji, rfl⟩
      case inr => exact absurd hy (hnone y (mem_of_getElem? hj))
    refine ⟨fun j m y z hj hy hm hz => ?_, fun y hy hyw => ?_, fun _ _ _ h => absurd h hr⟩
    · exact (hold j y hj hy).left.trans (hold m z hm hz).left.symm
    · have ⟨j, hj⟩ := List.getElem?_of_mem hy
      have := (hold j y hj (Phase.isParked_of_isWaiting hyw)).right
      cases outcome <;> simp_all

theorem Lone.park (hi : c.calls[i]? = some x) (hx : x.phase = .parking k)
    (hk : ¬c.kept ∧ ¬c.closed) :
    Lone ready { c with calls := c.calls.set i { x with phase := .waiting k } } := by
  have hxp : x.phase.isParked := by rw [hx]; rfl
  refine ⟨fun j m y z hj hy hm hz => ?_, fun _ _ _ => hk, fun y _ _ hr => ?_⟩
  · have hold : ∀ (j : Nat) y, (c.calls.set i { x with phase := .waiting k })[j]? = some y →
        y.phase.isParked → j = i := by
      intro j y hj hy
      rcases getElem?_set_cases hj with ⟨hji, _⟩ | ⟨_, hj⟩
      case inl => exact hji
      case inr => exact h.unique j i y x hj hy hi hxp
    exact (hold j y hj hy).trans (hold m z hm hz).symm
  · exact h.told x (mem_of_getElem? hi) hxp hr

end

theorem Reachable.lone {guard : System σ κ ρ → κ → Bool} {shared : σ}
    (ht : ∀ (c : System σ κ ρ) i k s' notice outcome, guard c k →
      body i k c.shared = (s', notice, outcome) → Tells ready c s' notice outcome)
    (h : Reachable .channel body guard shared c) : Lone ready c := by
  induction h
  case init => exact .of_none nofun
  case step c c' _ hs hi =>
    cases hs
    case call op => exact hi.call op
    case run i x k s' notice outcome _ _ hg hb hn =>
      exact hi.run (ht c i k s' notice outcome hg hb) hn
    case receive hx hp _ =>
      exact hi.leave hx (by rw [hp]; rfl) (by simp)
    case park hx hp hk => exact hi.park hx hp hk

theorem Lone.not_stuck (h : Lone ready c) : ¬c.stuck fun _ => ready := by
  intro hs
  have ⟨x, hx, hw⟩ := List.any_eq_true.mp (Bool.and_eq_true_iff.mp hs).right
  have ⟨_, _, hr⟩ := Call.waitsFor_iff.mp hw
  have hwait := Call.isWaiting_of_waitsFor hw
  have ⟨hkept, hclosed⟩ := h.closed x hx hwait
  exact (h.told x hx (Phase.isParked_of_isWaiting hwait) hr).elim hkept hclosed

end Channel

end Monitor

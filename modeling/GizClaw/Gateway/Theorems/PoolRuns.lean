import GizClaw.Gateway.Theorems.PoolSteps

-- The calls to the pool keep to what they hold.

namespace GizClaw.UpstreamPool

variable {cfg : Config} {s : State} {tokens held : Multiset Token} {u k g : Nat}

def Entry : Op → Multiset Token → Prop
  | .replenish g, tokens => tokens = {.growth g}
  | .closer u, tokens => tokens = {.closing u}
  | _, tokens => tokens = 0

abbrev Owns {α : Type} (cfg : Config) (Q : α → Multiset Token → Prop) (held : Multiset Token)
    (p : Call α) : Prop :=
  Threads.Owns (timelySystem cfg) (Inv cfg) Entry Q held p

theorem owns_act (hforks : ∀ r, forks a r = [])
    (h : ∀ s rest ch r s', Inv cfg s (held + rest) → Timely cfg s a →
      perform cfg ch a s = some (r, s') → ∃ held', Inv cfg s' (held' + rest) ∧ Q r held') :
    Owns cfg Q held (act a) := by
  refine .act hforks fun s rest r s' hinv ⟨⟨ch, hp⟩, ht⟩ => ?_
  exact h s rest ch r s' hinv ht hp

section Actions

def Selection.gives : Selection → Multiset Token
  | .selected growth => growing growth
  | .grow g => {.growth g}
  | _ => 0

theorem pick_spec (h : s.pick cfg channels us selected = some u) :
    selected = some u ∨ u ∈ us ∧ s.eligible cfg channels u := by
  induction us generalizing selected
  case nil => exact .inl h
  case cons hi =>
    rw [State.pick] at h
    split at h
    case isTrue hv =>
      rcases hi h with he | ⟨hu, he⟩
      · cases he
        exact .inr ⟨List.mem_cons_self, (Bool.and_eq_true_iff.mp hv).left⟩
      · exact .inr ⟨List.mem_cons_of_mem _ hu, he⟩
    case isFalse => exact (hi h).imp_right fun ⟨hu, he⟩ => ⟨List.mem_cons_of_mem _ hu, he⟩

theorem Inv.select (h : Inv cfg s tokens) :
    Inv cfg (s.select cfg channels).snd ((s.select cfg channels).fst.gives + tokens) := by
  unfold State.select
  split
  case isTrue => simpa [Selection.gives] using h
  case isFalse =>
    split
    case h_1 hu =>
      have ⟨hentry, he⟩ := (pick_spec hu).resolve_left nofun
      have ⟨x, hx, he⟩ := exists_of_has he
      simp only [Bool.and_eq_true, decide_eq_true_eq] at he
      exact (h.take hentry hx he.left.left he.left.right).reserveWarmGrowth
    case h_2 =>
      split
      case isTrue => simpa [Selection.gives] using h
      case isFalse hroom =>
        split
        case h_1 => simpa [Selection.gives] using h
        case h_2 hnone => exact h.grow hnone (Nat.lt_of_not_le hroom)

theorem owns_select : Owns cfg (fun r left => left = Selection.gives r) 0 (act .select) := by
  refine owns_act (fun _ => rfl) fun s rest ch r s' hinv _ hp => ?_
  obtain ⟨rfl, rfl⟩ := Prod.mk.injEq .. ▸ Option.some.inj hp
  rw [zero_add] at hinv
  exact ⟨_, hinv.select, rfl⟩

theorem owns_awaitGrowth : Owns cfg (fun _ left => left = 0) 0 (act (.awaitGrowth g)) := by
  refine owns_act (fun _ => rfl) fun s rest ch r s' hinv _ hp => ?_
  simp only [perform, Option.ite_none_left_eq_some, Option.some.injEq, Prod.mk.injEq] at hp
  obtain ⟨_, _, rfl⟩ := hp
  exact ⟨0, hinv, rfl⟩

def dialedAny : Option Nat → Multiset Token
  | some u => {.dialed u}
  | none => 0

theorem owns_dial : Owns cfg (fun r left => left = dialedAny r + held) held (act .dial) := by
  refine owns_act (fun _ => rfl) fun s rest ch r s' hinv _ hp => ?_
  simp only [perform] at hp
  split at hp
  case isTrue =>
    cases hp
    refine ⟨_, ?_, rfl⟩
    rw [add_assoc]
    exact hinv.dial
  case isFalse =>
    cases hp
    exact ⟨held, hinv, (zero_add _).symm⟩

-- Growth comes to its end, whether it still is the current one or not.
theorem Inv.endGrowth (h : Inv cfg s ({.growth g} + tokens)) :
    Inv cfg (if s.growthDone = some g then s.finishGrowth g else s) tokens := by
  split
  case isTrue hg => exact h.finishGrowth hg
  case isFalse hg => exact h.dropGrowth hg

def Insertion.gives : Insertion → Multiset Token
  | .rejected u => {.closing u}
  | _ => 0

theorem Inv.current (h : Inv cfg s ({.growth g} + tokens)) (hs : s.unavailable = false) :
    s.growthDone = some g ∧ s.entries.length < cfg.maxUpstreams := by
  have hclosed : s.closed = false := (Bool.or_eq_false_iff.mp hs).left
  have hg : s.growthDone = some g := by
    refine (h.growth.current g (mem_singleton_add.mpr (.inl rfl))).resolve_right fun hc => ?_
    rw [hc] at hclosed
    contradiction
  exact ⟨hg, h.growth.room (by rw [hg]; rfl)⟩

theorem Inv.insertAcquired (h : Inv cfg s ({.growth g} + (dialedAny dialed + tokens)))
    (ht : Timely cfg s (.insertAcquired g dialed)) :
    Inv cfg (s.insertAcquired g dialed).snd ((s.insertAcquired g dialed).fst.gives + tokens) := by
  have hend := h.endGrowth
  have hunavailable : (if s.growthDone = some g then s.finishGrowth g else s).unavailable =
      s.unavailable := by
    split <;> rfl
  unfold State.insertAcquired
  cases dialed
  case none =>
    simp only [dialedAny, zero_add] at hend
    simpa [Insertion.gives] using hend
  case some u =>
    simp only [hunavailable]
    split
    case isTrue => exact hend.reject
    case isFalse hs =>
      have hs := Bool.eq_false_iff.mpr hs
      have ⟨hg, hroom⟩ := h.current hs
      rw [if_pos hg] at hend ⊢
      simp only [Insertion.gives, zero_add]
      exact hend.insert (ht u (by simp [inserts, hs])) rfl hroom

theorem owns_insertAcquired :
    Owns cfg (fun r left => left = Insertion.gives r) (dialedAny dialed + {.growth g})
      (act (.insertAcquired g dialed)) := by
  refine owns_act (fun _ => rfl) fun s rest ch r s' hinv ht hp => ?_
  obtain ⟨rfl, rfl⟩ := Prod.mk.injEq .. ▸ Option.some.inj hp
  rw [add_comm (dialedAny _), add_assoc] at hinv
  exact ⟨_, hinv.insertAcquired ht, rfl⟩

theorem owns_checkGrowth :
    Owns cfg (fun r left => left = if r then {.growth g} else 0) {.growth g}
      (act (.checkGrowth g)) := by
  refine owns_act (fun _ => rfl) fun s rest ch r s' hinv ht hp => ?_
  simp only [perform, State.checkGrowth] at hp
  split at hp
  case isTrue hg =>
    split at hp
    case isTrue =>
      cases hp
      exact ⟨0, (zero_add rest).symm ▸ hinv.finishGrowth hg, rfl⟩
    case isFalse =>
      cases hp
      exact ⟨_, hinv, rfl⟩
  case isFalse hg =>
    cases hp
    exact ⟨0, (zero_add rest).symm ▸ hinv.dropGrowth hg, rfl⟩

def Warming.gives (g : Nat) : Warming → Multiset Token
  | .stopped rejected => leaving rejected
  | .finished => 0
  | .more g => {.growth g}
  | .retry => {.growth g}

theorem Inv.rejectAny (h : Inv cfg s (dialedAny dialed + tokens)) :
    Inv cfg (s.rejectAny dialed) (leaving dialed + tokens) := by
  cases dialed
  case none => exact h
  case some => exact h.reject

theorem Inv.insertWarm (h : Inv cfg s ({.growth g} + (dialedAny dialed + tokens)))
    (ht : Timely cfg s (.insertWarm g dialed)) :
    Inv cfg (s.insertWarm cfg g dialed).snd ((s.insertWarm cfg g dialed).fst.gives g + tokens) := by
  unfold State.insertWarm
  split
  case isTrue hg => exact (h.dropGrowth hg).rejectAny
  case isFalse hg =>
    have hg := not_not.mp hg
    split
    case isTrue => exact (h.finishGrowth hg).rejectAny
    case isFalse hs =>
      have ⟨_, hroom⟩ := h.current (Bool.eq_false_iff.mpr hs)
      cases dialed
      case none =>
        simp only [dialedAny, zero_add] at h
        exact h
      case some u =>
        dsimp only
        split
        case isTrue => exact (h.finishGrowth hg).reject
        case isFalse hwarm =>
          have hu := ht u (by simp [inserts, hg, hs, hwarm])
          have hinsert : Inv cfg ((s.insert u).finishGrowth g) tokens :=
            (h.finishGrowth hg).insert hu rfl hroom
          split
          case isTrue hmore =>
            simp only [State.hasWarmRoom, Bool.and_eq_true, decide_eq_true_eq] at hmore
            exact hinsert.grow rfl hmore.right
          case isFalse =>
            simp only [Warming.gives, zero_add]
            exact hinsert

theorem owns_insertWarm :
    Owns cfg (fun r left => left = Warming.gives g r) (dialedAny dialed + {.growth g})
      (act (.insertWarm g dialed)) := by
  refine owns_act (fun _ => rfl) fun s rest ch r s' hinv ht hp => ?_
  obtain ⟨rfl, rfl⟩ := Prod.mk.injEq .. ▸ Option.some.inj hp
  rw [add_comm (dialedAny _), add_assoc] at hinv
  exact ⟨_, hinv.insertWarm ht, rfl⟩

theorem owns_once :
    Owns cfg (fun r left => left = if r then {.once k} else 0) 0 (act (.once k)) := by
  refine owns_act (fun _ => rfl) fun s rest ch r s' hinv ht hp => ?_
  rw [zero_add] at hinv
  simp only [perform] at hp
  split at hp
  case h_1 ha =>
    split at hp
    case isTrue =>
      cases hp
      exact ⟨0, (zero_add rest).symm ▸ hinv, rfl⟩
    case isFalse honce =>
      cases hp
      exact ⟨_, hinv.once ha (Bool.eq_false_iff.mpr honce), rfl⟩
  case h_2 => contradiction

-- What a call that may let an upstream go is left with.
abbrev Left (r : Option Nat × Option Nat) (left : Multiset Token) : Prop :=
  left = leaving r.fst + growing r.snd

theorem owns_release : Owns cfg Left {.once k} (act (.release k)) := by
  refine owns_act (fun _ => rfl) fun s rest ch r s' hinv ht hp => ?_
  obtain ⟨rfl, rfl⟩ := Prod.mk.injEq .. ▸ Option.some.inj hp
  exact ⟨_, hinv.release, rfl⟩

theorem owns_draining : Owns cfg Left 0 (act (.markDraining k)) := by
  refine owns_act (fun _ => rfl) fun s rest ch r s' hinv ht hp => ?_
  obtain ⟨rfl, rfl⟩ := Prod.mk.injEq .. ▸ Option.some.inj hp
  exact ⟨_, (zero_add rest ▸ hinv).markDraining, rfl⟩

theorem owns_failed : Owns cfg Left 0 (act (.markFailed u)) := by
  refine owns_act (fun _ => rfl) fun s rest ch r s' hinv ht hp => ?_
  obtain ⟨rfl, rfl⟩ := Prod.mk.injEq .. ▸ Option.some.inj hp
  exact ⟨_, (zero_add rest ▸ hinv).markFailed, rfl⟩

theorem owns_closeUpstream : Owns cfg (fun _ left => left = 0) {.closing u}
    (act (.closeUpstream u)) := by
  refine owns_act (fun _ => rfl) fun s rest ch r s' hinv ht hp => ?_
  obtain ⟨rfl, rfl⟩ := Prod.mk.injEq .. ▸ Option.some.inj hp
  exact ⟨0, (zero_add rest).symm ▸ hinv.close, rfl⟩

theorem owns_cancel : Owns cfg (fun _ left => left = 0) 0 (act .cancel) := by
  refine owns_act (fun _ => rfl) fun s rest ch r s' hinv ht hp => ?_
  obtain ⟨rfl, rfl⟩ := Prod.mk.injEq .. ▸ Option.some.inj hp
  exact ⟨0, hinv.cancel, rfl⟩

theorem owns_spawn (h : Entry op held) :
    Owns cfg (fun _ left => left = 0) held (act (.spawn op)) := by
  intro s rest r s' hinv ⟨⟨ch, hp⟩, _⟩
  obtain ⟨rfl, rfl⟩ := Prod.mk.injEq .. ▸ Option.some.inj hp
  refine ⟨0, [held], .cons h .nil, ?_, rfl⟩
  simpa using hinv

theorem closers_given (us : List Nat) : ∃ given, List.Forall₂ Entry (us.map .closer) given ∧
    given.sum = closers us := by
  induction us
  case nil => exact ⟨[], .nil, rfl⟩
  case cons u us hi =>
    have ⟨given, hgiven, hsum⟩ := hi
    have hentry : Entry (.closer u) {.closing u} := rfl
    refine ⟨{.closing u} :: given, .cons hentry hgiven, ?_⟩
    rw [List.sum_cons, hsum]
    rfl

theorem owns_closePool : Owns cfg (fun _ left => left = 0) 0 (act .closePool) := by
  intro s rest r s' hinv ⟨⟨ch, hp⟩, _⟩
  obtain ⟨rfl, rfl⟩ := Prod.mk.injEq .. ▸ Option.some.inj hp
  have ⟨given, hgiven, hsum⟩ := closers_given s.closePool.fst
  refine ⟨0, given, hgiven, ?_, rfl⟩
  rw [zero_add, hsum]
  exact (zero_add rest ▸ hinv).closePool

end Actions

section Calls

abbrev Finishes (cfg : Config) (held : Multiset Token) (p : Call Unit) : Prop :=
  Owns cfg (fun _ left => left = 0) held p

theorem closeAny_finishes (left : Option Nat) : Finishes cfg (leaving left) (closeAny left) := by
  cases left
  case none => exact rfl
  case some => exact owns_closeUpstream

theorem startReplenishing_finishes (growth : Option Nat) :
    Finishes cfg (growing growth) (startReplenishing growth) := by
  cases growth
  case none => exact rfl
  case some => exact owns_spawn rfl

-- An upstream that has left is closed, and the pool grows again.
theorem leave_finishes (r : Option Nat × Option Nat) :
    Finishes cfg (leaving r.fst + growing r.snd) (do closeAny r.fst; startReplenishing r.snd) := by
  refine .bind ((closeAny_finishes r.fst).frame_eq (growing r.snd))
    fun _ left hleft => ?_
  rw [hleft, zero_add]
  exact startReplenishing_finishes r.snd

theorem acquire_finishes : Finishes cfg 0 acquire := by
  refine .bind owns_select fun r left hleft => ?_
  subst hleft
  cases r
  case unavailable | overCapacity => exact rfl
  case selected growth => exact startReplenishing_finishes growth
  case wait =>
    refine .bind owns_awaitGrowth fun able left hleft => ?_
    subst hleft
    cases able
    case false => exact rfl
    case true => exact owns_spawn rfl
  case grow =>
    refine .bind owns_dial fun dialed left hleft => ?_
    subst hleft
    refine .bind owns_insertAcquired fun r left hleft => ?_
    subst hleft
    cases r
    case failed => exact rfl
    case rejected => exact owns_closeUpstream
    case inserted => exact owns_spawn rfl

theorem release_finishes : Finishes cfg 0 (release k) := by
  refine .bind owns_once fun first left hleft => ?_
  subst hleft
  cases first
  case false => exact rfl
  case true =>
    refine .bind owns_release fun r left hleft => ?_
    subst hleft
    exact leave_finishes r

theorem markDraining_finishes : Finishes cfg 0 (markDraining k) := by
  refine .bind owns_draining fun r left hleft => ?_
  subst hleft
  exact leave_finishes r

theorem markFailed_finishes : Finishes cfg 0 (markFailed u) := by
  refine .bind owns_failed fun r left hleft => ?_
  subst hleft
  exact leave_finishes r

theorem replenishWarm_finishes : Finishes cfg {.growth g} (replenishWarm g) := by
  refine .bind owns_checkGrowth fun current left hleft => ?_
  subst hleft
  cases current
  case false => exact rfl
  case true =>
    refine .bind owns_dial fun dialed left hleft => ?_
    subst hleft
    refine .bind owns_insertWarm fun r left hleft => ?_
    subst hleft
    cases r
    case stopped rejected => exact closeAny_finishes rejected
    case finished => exact rfl
    case more g | retry => exact owns_spawn rfl

theorem call_finishes (op : Op) (h : Entry op tokens) : Finishes cfg tokens op.call := by
  cases op
  case acquire => exact h ▸ acquire_finishes
  case release => exact h ▸ release_finishes
  case drain => exact h ▸ markDraining_finishes
  case fail => exact h ▸ markFailed_finishes
  case replenish => exact h ▸ replenishWarm_finishes
  case close => exact h ▸ owns_closePool.bind fun _ _ hleft => hleft
  case closer => exact h ▸ owns_closeUpstream
  case cancel => exact h ▸ owns_cancel

end Calls

abbrev Running := Threads.Config Act Reply State Op Unit

theorem sound (h : Threads.Reachable (timelySystem cfg) c) :
    ∃ held, Threads.Sound (timelySystem cfg) (Inv cfg) Entry c held := by
  refine h.sound (inv_init cfg) (fun op tokens he => call_finishes op he) fun op he => ?_
  cases op <;> first | exact rfl | contradiction

-- Where no upstream has failed before it was added to the list, those in the list are of use, they
-- have as many sessions as were acquired and not released, and neither them nor sessions are too
-- many. What is not in the list and not in the hands of those who have dialed it is closed, once,
-- and so are the channels that growth is waited for with.
theorem pool_entries_alive {c : Running} (h : Threads.Reachable (timelySystem cfg) c) :
    (∀ u ∈ c.shared.entries, ∃ x, c.shared.upstreams[u]? = some x ∧ x.closes = 0 ∧
      (x.status = .selectable ∨ x.status = .draining ∧ 0 < x.active)) ∧
    (∀ u x, c.shared.upstreams[u]? = some x →
      x.active = c.shared.acquisitions.countP (fun k => k.upstream = u && !k.released) ∧
      x.active ≤ cfg.sessionsPerUpstream) ∧
    c.shared.entries.length ≤ cfg.maxUpstreams ∧
    (∀ k ∈ c.shared.acquisitions, k.status = .selectable) ∧
    (∀ u x, c.shared.upstreams[u]? = some x → u ∉ c.shared.entries →
      (x.dialing ∨ x.due) ∧ x.closes ≤ 1) ∧
    (∀ g < c.shared.channels,
      c.shared.closings.count g + (if c.shared.growthDone = some g then 1 else 0) = 1) ∧
    ((∀ t ∈ c.threads, Threads.Done t) →
      (∀ u x, c.shared.upstreams[u]? = some x → u ∉ c.shared.entries → x.closes = 1) ∧
      ∀ g < c.shared.channels, c.shared.closings.count g = 1) := by
  have ⟨held, hsound⟩ := sound h
  have hinv := hsound.inv
  refine ⟨?_, ?_, hinv.growth.limit, hinv.acquired.status, ?_, ?_, ?_⟩
  · intro u hu
    have hlt : u < c.shared.upstreams.length := by
      by_contra hge
      exact (hinv.known u (Nat.le_of_not_lt hge)).left hu
    have hf := hinv.fits u _ (List.getElem?_eq_getElem hlt)
    have ⟨hstatus, _, hdue⟩ := hf.listed hu
    refine ⟨_, List.getElem?_eq_getElem hlt, ?_, hstatus⟩
    have ⟨hle, hone⟩ := hf.closes
    rw [hdue] at hone
    exact Nat.lt_one_iff.mp (lt_of_le_of_ne hle fun he => nomatch hone he)
  · exact fun u x hx => ⟨(hinv.fits u x hx).active, (hinv.fits u x hx).limit⟩
  · exact fun u x hx hu => ⟨(hinv.fits u x hx).unlisted hu, (hinv.fits u x hx).closes.left⟩
  · intro g hg
    rw [hinv.growth.closings g, if_pos hg]
  · intro hdone
    have hinv := hsound.quiet hdone
    refine ⟨fun u x hx hu => ?_, fun g hg => ?_⟩
    · have hf := hinv.fits u x hx
      refine (hf.due ((hf.unlisted hu).resolve_left fun hd => ?_)).resolve_right
        (Multiset.notMem_zero _)
      have hcount := hinv.dialing u
      rw [has_eq hx, hd, Multiset.count_zero] at hcount
      contradiction
    · have hcount := hinv.growth.closings g
      rwa [if_pos hg, if_neg fun hd => Multiset.notMem_zero _ (hinv.growth.held g hd)] at hcount

namespace Sample

def config : Config where
  maxUpstreams := 1
  sessionsPerUpstream := 1
  channelsPerUpstream := 0

def timely (ch : Choice) (a : Act) (s : State) : Option (Reply a × State) :=
  if Timely config s a then perform config ch a s else none

-- An upstream is acquired, released and fails, and another one takes its place.
def replaced : List (Threads.Turn Op Choice) :=
  [.start .acquire] ++ List.replicate 4 (.act 0 {}) ++ [.act 1 {}] ++
  [.start (.release 0)] ++ List.replicate 2 (.act 2 {}) ++
  [.start (.fail 0)] ++ List.replicate 3 (.act 3 {}) ++ List.replicate 3 (.act 4 {})

-- The reader of an upstream finds that it has failed before it is added.
def early : List (Threads.Turn Op Choice) :=
  [.start .acquire] ++ List.replicate 2 (.act 0 {}) ++
  [.start (.fail 0)] ++ List.replicate 2 (.act 1 {}) ++
  List.replicate 2 (.act 0 {}) ++ [.act 2 {}]

end Sample

theorem pool_entries_alive_sample :
    ∃ c, Threads.Reachable (timelySystem Sample.config) c ∧ (∀ t ∈ c.threads, Threads.Done t) ∧
      c.shared.entries = [1] ∧ (∃ x, c.shared.upstreams[0]? = some x ∧ x.closes = 1) ∧
      c.shared.closings.count 1 = 1 := by
  have hrun :
      ((Threads.Config.mk (timelySystem Sample.config).init []).run (timelySystem Sample.config)
      Sample.timely Sample.replaced).map (fun c => (c.shared.entries, c.shared.upstreams.length,
        c.shared.channels, decide (∀ t ∈ c.threads, Threads.Done t))) = some ([1], 2, 2, true) := by
    decide +kernel
  obtain ⟨c, hc, hf⟩ := Threads.Reachable.exists_run (S := timelySystem Sample.config)
    (fun ch a s r s' hp => by
      have ⟨ht, hp⟩ := Option.ite_none_right_eq_some.mp hp
      exact ⟨⟨ch, hp⟩, ht⟩) hrun
  simp only [Prod.mk.injEq, decide_eq_true_eq] at hf
  obtain ⟨hentries, hupstreams, hchannels, hdone⟩ := hf
  have ⟨hclosed, hgrowth⟩ := (pool_entries_alive hc).right.right.right.right.right.right hdone
  have hx := List.getElem?_eq_getElem (l := c.shared.upstreams) (i := 0) (by omega)
  refine ⟨c, hc, hdone, hentries, ⟨_, hx, hclosed 0 _ hx ?_⟩, hgrowth 1 (by omega)⟩
  rw [hentries]
  simp

-- An upstream that has failed is in the list for good, and there is no room for another one.
theorem failed_upstream_listed :
    ∃ c, Threads.Reachable (system Sample.config) c ∧ (∀ t ∈ c.threads, Threads.Done t) ∧
      c.shared.entries = [0] ∧ c.shared.upstreams[0]?.map Upstream.status = some .failed ∧
      Sample.config.maxUpstreams = 1 := by
  have hrun : ((Threads.Config.mk (system Sample.config).init []).run (system Sample.config)
      (perform Sample.config) Sample.early).map (fun c => (c.shared.entries,
        c.shared.upstreams[0]?.map Upstream.status, decide (∀ t ∈ c.threads, Threads.Done t))) =
      some ([0], some .failed, true) := by
    decide +kernel
  obtain ⟨c, hc, hf⟩ := Threads.Reachable.exists_run (S := system Sample.config)
    (fun ch _ _ _ _ hp => ⟨ch, hp⟩) hrun
  simp only [Prod.mk.injEq, decide_eq_true_eq] at hf
  exact ⟨c, hc, hf.right.right, hf.left, hf.right.left, rfl⟩

end GizClaw.UpstreamPool

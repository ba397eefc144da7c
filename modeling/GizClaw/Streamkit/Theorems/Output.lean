import GizClaw.Streamkit.Output

-- An output whose entries have all been pushed with both callbacks.

namespace GizClaw.Streamkit.Output

variable {α : Type} {cfg : OutputConfig} {o o' : Output α} {n : Nat}

-- Production is over and nobody waits for a delivery any more.
structure Settles (o : Output α) : Prop where
  closed : o.closed
  observers : o.observers = 0
  quiet : o.observationAborted ∨ o.queue = []

-- `n` observers are running.
structure Tidy (cfg : OutputConfig) (o : Output α) (n : Nat) : Prop where
  entries : ∀ e ∈ o.queue, e.observe = !o.observationAborted ∧ e.abandon =
    !o.observationAborted
  deferred : ∀ d ∈ o.deferred, d.observe ∧ d.abandon
  deferredObservers : o.deferredObservers = o.deferred.length
  observers : o.observers = o.deferred.length + n
  queuedBytes : o.queuedBytes = (o.queue.map Entry.bytes).sum
  limit : 0 < cfg.maxBytes → (o.queuedBytes : Int) ≤ cfg.maxBytes
  aborted : o.observationAborted → o.closed ∧ o.deferred = []
  closeErr : o.closeErr.isSome → o.observationAborted ∧ o.queue = []

structure Valid (cfg : OutputConfig) (o : Output α) (n : Nat) : Prop extends Tidy cfg o n where
  settled : o.settled ↔ o.Settles

theorem valid_new : Valid cfg (.new : Output α) 0 where
  entries := fun _ h => absurd h List.not_mem_nil
  deferred := fun _ h => absurd h List.not_mem_nil
  deferredObservers := rfl
  observers := rfl
  queuedBytes := rfl
  limit := Int.le_of_lt
  aborted := nofun
  closeErr := nofun
  settled := ⟨nofun, fun h => nomatch h.closed⟩

section Settling

theorem signalSettled_eq : o.signalSettled cfg = { o with settled := o.settled ||
    (o.closed && o.observers = 0 && (o.observationAborted ||
      !(cfg.observe && !o.queue.isEmpty || o.queue.any fun e => e.observe || e.abandon))) } := by
  unfold signalSettled
  generalize (cfg.observe && !o.queue.isEmpty || o.queue.any fun e => e.observe || e.abandon) = busy
  split
  case isTrue h =>
    have hfalse : (o.closed && decide (o.observers = 0)) = false := by
      simp only [Bool.or_eq_true, Bool.not_eq_true', decide_eq_true_eq] at h
      rcases h with h | h <;> simp [h]
    rw [hfalse, Bool.false_and, Bool.or_false]
  case isFalse h =>
    have htrue : (o.closed && decide (o.observers = 0)) = true := by
      simpa using h
    rw [htrue, Bool.true_and]
    have hbusy : (o.observationAborted || !busy) = !(!o.observationAborted && busy) := by
      rw [Bool.not_and, Bool.not_not]
    rw [hbusy]
    split
    case isTrue h' => rw [h', Bool.not_true, Bool.or_false]
    case isFalse h' => rw [Bool.eq_false_iff.mpr h', Bool.not_false, Bool.or_true]

-- Entries that are left have callbacks, as long as those are not aborted.
theorem Tidy.quiet_iff (h : Tidy cfg o n) : (o.observationAborted ||
    !(cfg.observe && !o.queue.isEmpty || o.queue.any fun e => e.observe || e.abandon)) = true ↔
      o.observationAborted ∨ o.queue = [] := by
  cases ha : o.observationAborted
  case true => simp
  case false =>
    cases hq : o.queue
    case nil => simp
    case cons e es =>
      have ⟨he, _⟩ := h.entries e (hq ▸ List.mem_cons_self)
      rw [ha] at he
      simp [he]

-- What has settled stays so.
theorem Tidy.signal (h : Tidy cfg o n) (hs : o.settled → o.Settles) :
    Valid cfg (o.signalSettled cfg) n := by
  rw [signalSettled_eq]
  refine ⟨{ h with }, ?_⟩
  simp only [Bool.or_eq_true, Bool.and_eq_true, decide_eq_true_eq]
  rw [← Bool.or_eq_true, h.quiet_iff]
  constructor
  · rintro (hsettled | ⟨⟨hclosed, hobservers⟩, hquiet⟩)
    · exact ⟨(hs hsettled).closed, (hs hsettled).observers, (hs hsettled).quiet⟩
    · exact ⟨hclosed, hobservers, hquiet⟩
  · exact fun hsettles => .inr ⟨⟨hsettles.closed, hsettles.observers⟩, hsettles.quiet⟩

end Settling

variable [DecidableEq α]

-- How often a callback for a chunk is still to come.
@[local simp]
def owed (o : Output α) (c : α) : Nat :=
  o.queue.countP (fun e => e.chunk = c && e.abandon) + o.deferred.countP
    (fun d => d.chunk = c && d.abandon)

theorem owed_signalSettled (c : α) : (o.signalSettled cfg).owed c = o.owed c := by
  rw [signalSettled_eq]
  rfl

theorem count_abandoned {β : Type} {entries : List β} {chunk : β → α} {abandon : β → Bool} (c : α) :
    ((entries.filter abandon).map chunk).count c = entries.countP fun e => chunk e =
    c && abandon e := by
  rw [List.count, List.countP_map, List.countP_filter]
  congr 1

section Pulling

-- An entry is taken from the queue, and an observer of it may be running now.
inductive Pulls (cfg : OutputConfig) (o : Output α) (n : Nat) : Pulled α → Output α → Prop where
  | error (err : OutputError) : Pulls cfg o n (.error err) o
  | chunk {entry : Entry α} {queue : List (Entry α)} {observing : Bool} {o' : Output α}
    (hqueue : o.queue = entry :: queue) (hrest : o'.queue = queue)
    (hvalid : Valid cfg o' (if observing then n + 1 else n))
    (howed : ∀ c, o.owed c = o'.owed c + if observing ∧ entry.chunk = c then 1 else 0) :
    Pulls cfg o n (.chunk entry.chunk observing) o'

variable {entry : Entry α} {queue : List (Entry α)}

omit [DecidableEq α] in
theorem Tidy.pop (h : Tidy cfg o n) (hqueue : o.queue = entry :: queue) :
    Tidy cfg { o with queue := queue, queuedBytes := o.queuedBytes - entry.bytes } n :=
  { h with
    entries := fun e he => h.entries e (hqueue ▸ List.mem_cons_of_mem _ he)
    queuedBytes := by
      have hbytes := h.queuedBytes
      rw [hqueue, List.map_cons, List.sum_cons] at hbytes
      exact Nat.sub_eq_of_eq_add' hbytes
    limit := fun hpos => (Int.ofNat_le.mpr (Nat.sub_le ..)).trans (h.limit hpos)
    closeErr := fun hc => nomatch hqueue.symm.trans (h.closeErr hc).right }

theorem owed_pop (hqueue : o.queue = entry :: queue) (c : α) : o.owed c =
    owed { o with queue := queue, queuedBytes := o.queuedBytes - entry.bytes } c +
      if entry.chunk = c ∧ entry.abandon then 1 else 0 := by
  simp only [owed, hqueue, List.countP_cons, Bool.and_eq_true, decide_eq_true_eq]
  omega

omit [DecidableEq α] in
theorem Tidy.track (h : Tidy cfg o n) (ha : o.observationAborted = false)
    (habandon : entry.abandon) :
    Tidy cfg (o.track cfg entry) (if !cfg.deferred then n + 1 else n) := by
  unfold Output.track
  split
  case isTrue hd =>
    simp only [hd]
    exact { h with
      deferred :=
        List.forall_mem_append.mpr ⟨h.deferred, List.forall_mem_singleton.mpr ⟨rfl, habandon⟩⟩
      deferredObservers := by simp [h.deferredObservers]
      observers := by simp [h.observers]; omega
      aborted := fun haborted => nomatch ha.symm.trans haborted }
  case isFalse hd =>
    simp only [hd]
    exact { h with observers := congrArg (· + 1) h.observers }

omit [DecidableEq α] in
theorem track_queue : (o.track cfg entry).queue = o.queue := by
  unfold Output.track
  split <;> rfl

omit [DecidableEq α] in
theorem track_settled : (o.track cfg entry).settled = o.settled := by
  unfold Output.track
  split <;> rfl

theorem owed_track (habandon : entry.abandon) (c : α) : (o.track cfg entry).owed c =
    o.owed c + if cfg.deferred ∧ entry.chunk = c then 1 else 0 := by
  unfold Output.track
  split
  case isTrue hd =>
    simp [hd, habandon, List.countP_append, List.countP_singleton, add_assoc]
  case isFalse hd => simp [hd]

theorem Valid.next (h : Valid cfg o n) (hr : o.next cfg = some (r, o')) : Pulls cfg o n r o' := by
  have ⟨_, hr⟩ := Option.ite_none_left_eq_some.mp hr
  split at hr
  case h_1 err _ =>
    cases hr
    exact .error err
  case h_2 =>
    split at hr
    case h_1 =>
      cases hr
      exact .error _
    case h_2 entry queue hqueue =>
      cases hr
      have hpop := h.toTidy.pop hqueue
      have ⟨hobserve, habandon⟩ := h.entries entry (hqueue ▸ List.mem_cons_self)
      rcases Bool.eq_false_or_eq_true o.observationAborted with ha | ha
      · have htracked : ((entry.observe || cfg.observe) && !o.observationAborted) =
          false := by simp [ha]
        rw [htracked, if_neg Bool.false_ne_true, Bool.false_and]
        refine .chunk hqueue (by rw [signalSettled_eq]) (hpop.signal fun hs => ?_) fun c => ?_
        · have hsettles := h.settled.mp hs
          exact ⟨hsettles.closed, hsettles.observers, .inl ha⟩
        · rw [owed_signalSettled, owed_pop hqueue]
          simp [habandon, ha]
      · have hopen (hs : o.settled) : False :=
          (h.settled.mp hs).quiet.elim (by simp [ha]) fun hempty =>
            nomatch hqueue.symm.trans hempty
        have htracked : ((entry.observe || cfg.observe) && !o.observationAborted) = true := by
          simp [hobserve, ha]
        have habandon : entry.abandon := by simp [habandon, ha]
        rw [htracked, if_pos rfl, Bool.true_and]
        refine .chunk hqueue ?_ (Tidy.signal (hpop.track ha habandon) fun hs => ?_) fun c => ?_
        · rw [signalSettled_eq]
          exact track_queue
        · rw [track_settled] at hs
          exact (hopen hs).elim
        · rw [owed_signalSettled, owed_track habandon, owed_pop hqueue]
          cases cfg.deferred <;> simp [habandon]

end Pulling

section Observing

omit [DecidableEq α] in
theorem Valid.finishObservation (h : Valid cfg o (n + 1)) :
    Valid cfg (o.finishObservation cfg) n := by
  have hobservers := h.observers
  refine Tidy.signal { h with observers := Nat.sub_eq_of_eq_add hobservers } fun hs => ?_
  have hzero := (h.settled.mp hs).observers
  omega

theorem Valid.abandonDeferredObservations (h : Valid cfg o n) :
    Valid cfg (o.abandonDeferredObservations cfg).snd n ∧
    (o.abandonDeferredObservations cfg).snd.queue = o.queue ∧
    ∀ c, o.owed c =
      (o.abandonDeferredObservations cfg).snd.owed
      c + (o.abandonDeferredObservations cfg).fst.count c := by
  unfold Output.abandonDeferredObservations
  split
  case isTrue => exact ⟨h, rfl, fun c => rfl⟩
  case isFalse =>
    have hobservers := h.observers
    have hdeferred := h.deferredObservers
    refine ⟨Tidy.signal { h with
      deferred := nofun
      deferredObservers := rfl
      observers := by dsimp only [List.length_nil]; omega
      aborted := fun ha => ⟨(h.aborted ha).left, rfl⟩ } fun hs => ?_, ?_, fun c => ?_⟩
    · have hzero := (h.settled.mp hs).observers
      omega
    · rw [signalSettled_eq]
    · rw [owed_signalSettled, count_abandoned]
      simp

omit [DecidableEq α] in
-- In an aborted output the deferred observations may already have been the last thing to wait for.
theorem abandonDeferredObservations_eq (cfg : OutputConfig) (o : Output α)
    (hd : o.deferredObservers = o.deferred.length) :
    ∃ settled, o.abandonDeferredObservations cfg =
      ((o.deferred.filter (·.abandon)).map (·.chunk), { o with
      observers := o.observers - o.deferredObservers
      deferredObservers := 0
      deferred := []
      settled := settled }) ∧
      (settled → o.settled ∨ o.closed ∧ o.observers - o.deferredObservers = 0) := by
  unfold Output.abandonDeferredObservations
  split
  case isTrue =>
    refine ⟨o.settled, ?_, .inl⟩
    obtain ⟨⟩ := o
    simp_all
  case isFalse =>
    rw [signalSettled_eq]
    refine ⟨_, rfl, ?_⟩
    simp only [Bool.or_eq_true, Bool.and_eq_true, decide_eq_true_eq]
    rintro (hs | ⟨hs, _⟩)
    · exact .inl hs
    · exact .inr hs

theorem Valid.cancelObservations (h : Valid cfg o n) (hclosed : o.closed) :
    Valid cfg (o.cancelObservations cfg).snd n ∧
    (o.cancelObservations cfg).snd.queue.map Entry.chunk = o.queue.map Entry.chunk ∧
    ∀ c, o.owed c =
      (o.cancelObservations cfg).snd.owed c + (o.cancelObservations cfg).fst.count c := by
  have ⟨settled, heq, hsettled⟩ := abandonDeferredObservations_eq cfg
    { o with observationAborted := true } h.deferredObservers
  unfold Output.cancelObservations
  rw [heq]
  have hobservers := h.observers
  have hdeferred := h.deferredObservers
  refine ⟨Tidy.signal ⟨?_, fun _ hm => absurd hm List.not_mem_nil, rfl, ?_, ?_, h.limit, fun _ =>
    ⟨hclosed, rfl⟩, ?_⟩
    fun hs => ?_, ?_, fun c => ?_⟩
  · intro e he
    have ⟨e', _, he'⟩ := List.mem_map.mp he
    subst he'
    exact ⟨rfl, rfl⟩
  · simp only [List.length_nil]
    omega
  · rw [List.map_map]
    exact h.queuedBytes
  · intro hc
    refine ⟨rfl, ?_⟩
    simp [(h.closeErr hc).right]
  · refine ⟨hclosed, ?_, .inl rfl⟩
    rcases hsettled hs with hs | hs
    · have hzero := (h.settled.mp hs).observers
      simp only
      omega
    · exact hs.right
  · simp [signalSettled_eq]
  · dsimp only
    rw [owed_signalSettled, List.count_append, count_abandoned, count_abandoned]
    simp [List.countP_map, Function.comp_def, add_comm]

theorem Valid.closeWithError (h : Valid cfg o n) (err : OutputError) :
    Valid cfg (o.closeWithError cfg err).snd n ∧
    (o.closeWithError cfg err).snd.queue.map Entry.chunk =
      (if o.closed then o.queue.map Entry.chunk else []) ∧
    ∀ c, o.owed c =
      (o.closeWithError cfg err).snd.owed c + (o.closeWithError cfg err).fst.count c := by
  unfold Output.closeWithError
  split
  case isTrue hc =>
    have ⟨ha, hq⟩ := h.closeErr hc
    rw [if_pos (h.aborted ha).left]
    exact ⟨h, rfl, fun c => rfl⟩
  case isFalse =>
    split
    case isTrue hclosed => exact h.cancelObservations hclosed
    case isFalse hclosed =>
      have ⟨settled, heq, hsettled⟩ := abandonDeferredObservations_eq cfg { o with
        closeErr := some err
        closed := true
        observationAborted := true
        queue := []
        queuedBytes := 0 } h.deferredObservers
      rw [heq]
      have hobservers := h.observers
      have hdeferred := h.deferredObservers
      refine ⟨Tidy.signal ⟨fun _ hm => absurd hm List.not_mem_nil, fun _ hm =>
        absurd hm List.not_mem_nil, rfl, ?_,
        rfl, Int.le_of_lt, fun _ => ⟨rfl, rfl⟩, fun _ => ⟨rfl, rfl⟩⟩ fun hs => ?_, ?_, fun c => ?_⟩
      · simp only [List.length_nil]
        omega
      · refine ⟨rfl, ?_, .inl rfl⟩
        rcases hsettled hs with hs | hs
        · exact absurd (h.settled.mp hs).closed hclosed
        · exact hs.right
      · simp [signalDone, signalSettled_eq]
      · dsimp only [signalDone]
        rw [owed_signalSettled, List.count_append, count_abandoned, count_abandoned]
        simp

end Observing

section Production

omit [DecidableEq α] in
theorem Valid.fail (h : Valid cfg o n) (cause : Option OutputError) :
    Valid cfg (o.fail cfg cause) n := by
  unfold Output.fail
  split
  case isFalse => exact h
  case isTrue hc =>
    have hopen : o.closed = false := by
      simp only [Bool.and_eq_true, Bool.not_eq_true'] at hc
      exact hc.left
    refine Tidy.signal { h with aborted := fun ha => ⟨rfl, (h.aborted ha).right⟩ } fun hs => ?_
    exact nomatch hopen.symm.trans (h.settled.mp hs).closed

omit [DecidableEq α] in
theorem fail_queue (cfg : OutputConfig) (o : Output α) (cause : Option OutputError) :
    (o.fail cfg cause).queue = o.queue ∧ (o.fail cfg cause).deferred = o.deferred := by
  unfold Output.fail
  split
  case isTrue => simp [signalDone, signalSettled_eq]
  case isFalse => exact ⟨rfl, rfl⟩

-- A chunk is queued, or refused because the output is closed, or refused because it is too much.
inductive Pushes (cfg : OutputConfig) (o : Output α) (n : Nat) (chunk : α) :
    Except OutputError Unit × List α × Output α → Prop where
  | ok {o' : Output α} (hqueue : o'.queue.map Entry.chunk = o.queue.map Entry.chunk ++ [chunk])
    (hvalid : Valid cfg o' n) (howed : ∀ c, o'.owed c = o.owed c + if chunk = c then 1 else 0) :
    Pushes cfg o n chunk (.ok (), [], o')
  | closed (err : OutputError) (hclosed : o.closed) : Pushes cfg o n chunk (.error err, [], o)
  | limit {err : OutputError} {abandoned : List α} {o' : Output α} (hopen : o.closed = false)
    (hqueue : o'.queue = []) (hvalid : Valid cfg o' n)
    (howed : ∀ c, o.owed c + (if chunk = c then 1 else 0) = o'.owed c + abandoned.count c) :
    Pushes cfg o n chunk (.error err, abandoned, o')

theorem Valid.pushTracked (h : Valid cfg o n) (chunk : α) (bytes : Nat) :
    Pushes cfg o n chunk (o.pushTracked cfg chunk bytes true true) := by
  unfold Output.pushTracked
  split
  case h_1 err hc =>
    have ⟨ha, _⟩ := h.closeErr (by rw [hc]; rfl)
    exact .closed err (h.aborted ha).left
  case h_2 hc =>
    split
    case isTrue hclosed => exact .closed _ hclosed
    case isFalse hclosed =>
      have hopen := Bool.eq_false_iff.mpr hclosed
      split
      case isTrue =>
        have hclose := h.closeWithError (.outputLimit o.queuedBytes bytes cfg.maxBytes)
        dsimp only
        generalize o.closeWithError cfg (.outputLimit o.queuedBytes bytes cfg.maxBytes) =
          closing at hclose ⊢
        have ⟨hvalid, hqueue, howed⟩ := hclose
        rw [if_neg hclosed, List.map_eq_nil_iff] at hqueue
        refine .limit hopen hqueue hvalid fun c => ?_
        have hc := howed c
        simp only [List.count_append, if_true, List.count_singleton, beq_iff_eq]
        omega
      case isFalse hlimit =>
        have ha : o.observationAborted = false := by
          rw [← Bool.not_eq_true]
          exact fun ha => hclosed (h.aborted ha).left
        refine .ok (by simp) ⟨⟨?_, h.deferred, h.deferredObservers, h.observers, ?_, ?_, h.aborted,
          ?_⟩, ?_⟩ fun c => ?_
        · refine List.forall_mem_append.mpr ⟨h.entries, List.forall_mem_singleton.mpr ?_⟩
          simp [ha]
        · simp [h.queuedBytes]
        · intro hpos
          have hle := not_lt.mp fun hlt => hlimit ⟨hpos, hlt⟩
          exact_mod_cast hle
        · exact fun hsome => by simp [hc] at hsome
        · constructor
          · exact fun hs => absurd (h.settled.mp hs).closed hclosed
          · exact fun hs => absurd hs.closed hclosed
        · simp only [owed, List.countP_append, List.countP_singleton, Bool.and_true,
            decide_eq_true_eq]
          omega

theorem Valid.remove (h : Valid cfg o n) (ids : List Nat) : Valid cfg (o.remove cfg ids).snd n ∧
    (o.remove cfg ids).snd.queue = o.queue.filter (·.id ∉ ids) ∧
    (o.remove cfg ids).fst = o.queue.filter (·.id ∈ ids) ∧
    ∀ c, o.owed c = (o.remove cfg ids).snd.owed c +
      (((o.remove cfg ids).fst.filter (·.abandon)).map Entry.chunk).count c := by
  dsimp only [Output.remove]
  have hperm := List.filter_append_perm (fun e => decide (e.id ∈ ids)) o.queue
  refine ⟨Tidy.signal { h with
    entries := fun e he => h.entries e (List.mem_of_mem_filter he)
    queuedBytes := ?_
    limit := fun hpos => (Int.ofNat_le.mpr (Nat.sub_le ..)).trans (h.limit hpos)
    closeErr := fun hc => ⟨(h.closeErr hc).left, by simp [(h.closeErr hc).right]⟩ }
    fun hs => ?_, ?_, rfl, fun c => ?_⟩
  · have hsum := (hperm.map Entry.bytes).sum_eq
    rw [List.map_append, List.sum_append] at hsum
    have hbytes := h.queuedBytes
    simp only [← decide_not] at hsum ⊢
    omega
  · have hsettles := h.settled.mp hs
    exact ⟨hsettles.closed, hsettles.observers, hsettles.quiet.imp_right fun hq => by simp [hq]⟩
  · rw [signalSettled_eq]
  · rw [owed_signalSettled, count_abandoned]
    have hcount := hperm.countP_eq fun e => decide (e.chunk = c) && e.abandon
    rw [List.countP_append] at hcount
    simp only [owed, decide_not]
    omega

end Production

section Deferred

variable {chunk : α}

omit [DecidableEq α] in
theorem length_eraseP {deferred : List (DeferredObservation α)} (hd : deferred.find? p = some d) :
    (deferred.eraseP p).length + 1 = deferred.length := by
  have hmem := List.mem_of_find?_eq_some hd
  have hlength := List.length_eraseP_of_mem hmem (List.find?_some hd)
  have hpos := List.length_pos_of_mem hmem
  omega

theorem owed_eraseP {deferred : List (DeferredObservation α)}
    (hd : deferred.find? (·.chunk = chunk) = some d) (habandon : d.abandon) (c : α) :
    deferred.countP (fun d => d.chunk = c && d.abandon) =
      (deferred.eraseP (·.chunk = chunk)).countP (fun d => d.chunk = c && d.abandon) +
        if chunk = c then 1 else 0 := by
  induction deferred
  case nil => contradiction
  case cons e es hi =>
    by_cases he : e.chunk = chunk
    case pos =>
      rw [List.find?_cons_of_pos (by simpa using he)] at hd
      cases hd
      rw [List.eraseP_cons_of_pos (by simpa using he), List.countP_cons]
      simp [he, habandon]
    case neg =>
      rw [List.find?_cons_of_neg (by simpa using he)] at hd
      rw [List.eraseP_cons_of_neg (by simpa using he), List.countP_cons, List.countP_cons, hi hd]
      omega

-- The observer of a chunk runs from now on.
inductive Claims (cfg : OutputConfig) (o : Output α) (n : Nat) (chunk : α) :
    Option Bool × Output α → Prop where
  | none : Claims cfg o n chunk (none, o)
  | observing {o' : Output α} (hqueue : o'.queue = o.queue) (hvalid : Valid cfg o' (n + 1))
    (howed : ∀ c, o.owed c = o'.owed c + if chunk = c then 1 else 0) :
    Claims cfg o n chunk (some true, o')

theorem Valid.observeOutput (h : Valid cfg o n) (chunk : α) :
    Claims cfg o n chunk (o.observeOutput cfg chunk) := by
  unfold Output.observeOutput
  split
  case h_2 => exact .none
  case h_1 d hd =>
    split
    case isFalse => exact .none
    case isTrue =>
      have hmem := List.mem_of_find?_eq_some hd
      have ⟨hobserve, habandon⟩ := h.deferred d hmem
      have hlength := length_eraseP hd
      have hobservers := h.observers
      have hdeferred := h.deferredObservers
      rw [hobserve]
      refine .observing rfl ⟨⟨h.entries, ?_, ?_, ?_, h.queuedBytes, h.limit, ?_, h.closeErr⟩,
        ?_⟩ fun c => ?_
      · exact fun e he => h.deferred e (List.mem_of_mem_eraseP he)
      · exact Nat.sub_eq_of_eq_add (hdeferred.trans hlength.symm)
      · simp only
        omega
      · exact fun ha => nomatch (h.aborted ha).right ▸ hmem
      · constructor
        · intro hs
          have hzero := (h.settled.mp hs).observers
          omega
        · intro hs
          have hzero := hs.observers
          simp only at hzero
          omega
      · simp only [owed, owed_eraseP hd habandon c, add_assoc]

-- A chunk is given up.
theorem Valid.abandonOutputObservation (h : Valid cfg o n) (chunk : α) :
    Valid cfg (o.abandonOutputObservation cfg chunk).snd n ∧
    (o.abandonOutputObservation cfg chunk).snd.queue = o.queue ∧
    ∀ c, o.owed c = (o.abandonOutputObservation cfg chunk).snd.owed c +
      if (o.abandonOutputObservation cfg chunk).fst ∧ chunk = c then 1 else 0 := by
  unfold Output.abandonOutputObservation
  split
  case h_2 => exact ⟨h, rfl, fun c => by simp⟩
  case h_1 d hd =>
    split
    case isFalse => exact ⟨h, rfl, fun c => by simp⟩
    case isTrue =>
      have hmem := List.mem_of_find?_eq_some hd
      have ⟨_, habandon⟩ := h.deferred d hmem
      have hlength := length_eraseP hd
      have hobservers := h.observers
      have hdeferred := h.deferredObservers
      refine ⟨Tidy.signal ⟨h.entries, ?_, ?_, ?_, h.queuedBytes, h.limit, ?_, h.closeErr⟩
        fun hs => ?_, ?_,
        fun c => ?_⟩
      · exact fun e he => h.deferred e (List.mem_of_mem_eraseP he)
      · exact Nat.sub_eq_of_eq_add (hdeferred.trans hlength.symm)
      · simp only
        omega
      · exact fun ha => nomatch (h.aborted ha).right ▸ hmem
      · have hzero := (h.settled.mp hs).observers
        omega
      · rw [signalSettled_eq]
      · rw [owed_signalSettled]
        simp only [owed, owed_eraseP hd habandon c, habandon, true_and, add_assoc]

end Deferred

end GizClaw.Streamkit.Output

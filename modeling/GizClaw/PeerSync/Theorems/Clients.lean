import GizClaw.PeerSync.Theorems.Checkpoints

-- Every client holds what it has last passed, as long as no call commits on a reading of the clock
-- from before the last head was gone.

namespace GizClaw.PeerSync

open Interleaving
open PendingDeletion (Text ascii)
open KV.Typed (Effect)

attribute [local simp] State.committed State.begin

-- A call that has found no head commits only if all heads so far had expired when it read the
-- clock. A number that is not the client's own has not been issued when its checkpoint is looked
-- up.
def Clear (s : State) : Act → Prop
  | .getCheckpoint owner timestamp own => own ∨ ∀ i ∈ s.issued owner, i.timestamp ≠ timestamp
  | .save owner m => m.expected = none → ∀ i ∈ s.issued owner,
    i.deadline ≤ m.now
  | _ => True

instance (s : State) (a : Act) : Decidable (Clear s a) :=
  match a with
  | .getCheckpoint owner timestamp own =>
    inferInstanceAs (Decidable (own ∨ ∀ i ∈ s.issued owner, i.timestamp ≠ timestamp))
  | .save owner m =>
    inferInstanceAs (Decidable (m.expected = none → ∀ i ∈ s.issued owner, i.deadline ≤ m.now))
  | .clock => .isTrue trivial
  | .getHead _ => .isTrue trivial
  | .begin _ => .isTrue trivial
  | .finish .. => .isTrue trivial

def DoesClear : Exec Act Reply State :=
  fun a s r s' => Does a s r s' ∧ Clear s a

-- A client that has completed a call has the snapshot that was issued with its timestamp.
structure Current (issued : List Issue) (c : Client) : Prop where
  fresh : c.passed = none → c.timestamp = 0
  holds : ∀ current, c.passed = some current → c.view = current.lookup ∧
    ∃ i ∈ issued, i.timestamp = c.timestamp ∧ i.snapshot = current

theorem Current.mono (h : Current issued c) (hsub : issued ⊆ issued') : Current issued' c where
  fresh := h.fresh
  holds := by
    intro current hp
    have ⟨hview, i, hi, hrest⟩ := h.holds current hp
    exact ⟨hview, i, hsub hi, hrest⟩

structure Inv (P : Platform) (owners : Nat → PublicKey) (s : State) : Prop where
  retained : ∀ owner, Retained P (s.issued owner) (s.records owner)
  current : ∀ client, Current (s.issued (owners client)) (s.clients client)

structure Next (s s' : State) : Prop where
  issued : ∀ owner, s.issued owner ⊆ s'.issued owner
  turn : ∀ client, (s.clients client).turn ≤ (s'.clients client).turn
  same : ∀ client, (s'.clients client).turn = (s.clients client).turn →
    s'.clients client = s.clients client

theorem Next.refl (s : State) : Next s s :=
  ⟨fun _ => List.Subset.refl _, fun _ => le_refl _, fun _ _ => rfl⟩

theorem Next.trans (h₁₂ : Next s₁ s₂) (h₂₃ : Next s₂ s₃) : Next s₁ s₃ where
  issued := fun owner _ hi => h₂₃.issued owner (h₁₂.issued owner hi)
  turn := fun client => (h₁₂.turn client).trans (h₂₃.turn client)
  same := by
    intro client h
    have hle₁ := h₁₂.turn client
    have hle₂ := h₂₃.turn client
    exact (h₂₃.same client (by omega)).trans (h₁₂.same client (by omega))

section Steps

variable {P : Platform} {owners : Nat → PublicKey} {s : State}

theorem Inv.init : Inv P owners .init where
  retained := fun _ => .init
  current := fun _ => ⟨fun _ => rfl, fun _ h => nomatch h⟩

theorem Inv.committed {current : Snapshot} (h : Inv P owners s)
    (hm : Planned P expected now current m) (hlive : live t (s.records owner).head = expected)
    (hnear : m.Near) (hclear : expected = none → ∀ i ∈ s.issued owner, i.deadline ≤ now) :
    Inv P owners (s.committed owner m) ∧ Next s (s.committed owner m) := by
  have hissued : ∀ o, s.issued o ⊆ (s.committed owner m).issued o := by
    intro o
    by_cases ho : o = owner
    case pos =>
      subst ho
      simp
    case neg => simp [ho]
  refine ⟨⟨fun o => ?_, fun client => (h.current client).mono (hissued _)⟩, ?_⟩
  · by_cases ho : o = owner
    case pos =>
      subst ho
      simpa using (h.retained o).save hm hlive hnear hclear
    case neg => simpa [ho] using h.retained o
  · exact ⟨hissued, fun _ => le_refl _, fun _ _ => rfl⟩

-- A client takes its next turn.
theorem Next.update (h : (s.clients client).turn < after.turn) :
    Next s { s with clients := Function.update s.clients client after } where
  issued := fun _ => List.Subset.refl _
  turn := by
    intro i
    by_cases hi : i = client
    case pos =>
      subst hi
      simpa using h.le
    case neg => simp [hi]
  same := by
    intro i ht
    by_cases hi : i = client
    case pos =>
      subst hi
      simp only [Function.update_self] at ht
      omega
    case neg => simp [hi]

theorem Inv.update (h : Inv P owners s) (ha : Current (s.issued (owners client)) after) :
    Inv P owners { s with clients := Function.update s.clients client after } where
  retained := h.retained
  current := by
    intro i
    by_cases hi : i = client
    case pos =>
      subst hi
      simpa using ha
    case neg => simpa [hi] using h.current i

end Steps

section Calls

variable {P : Platform} {owners : Nat → PublicKey} {s : State} {owner : PublicKey} {α : Type}

abbrev Keeps (P : Platform) (owners : Nat → PublicKey) (Q : State → α → Prop) (s : State)
    (x : Call α) : Prop :=
  SafeOk DoesClear (Inv P owners) Next Q s x

-- The checkpoint with this timestamp, if there ever was one, is of this state.
def Of (owner : PublicKey) (timestamp : Int) (view : Text → Option Bytes) (s : State) : Prop :=
  timestamp = 0 ∨ ∃ i ∈ s.issued owner, i.timestamp = timestamp ∧ i.snapshot.lookup = view

theorem stable_of (timestamp : Int) (view : Text → Option Bytes) :
    Stable Next (Of owner timestamp view) := by
  refine ⟨fun h hn => h.imp_right fun ⟨i, hi, hrest⟩ => ⟨i, hn.issued owner hi, hrest⟩⟩

def Saved (owner : PublicKey) (current : Snapshot) (s : State) (timestamp : Int) : Prop :=
  ∃ i ∈ s.issued owner, i.timestamp = timestamp ∧ i.snapshot = current

-- The client still has this state if it has not turned to another call.
def Waits (client turn : Nat) (view : Text → Option Bytes) (s : State) : Prop :=
  turn ≤ (s.clients client).turn ∧ ((s.clients client).turn = turn → (s.clients client).view = view)

theorem stable_waits (client turn : Nat) (view : Text → Option Bytes) :
    Stable Next (Waits client turn view) := by
  refine ⟨fun {s s'} h hn => ?_⟩
  have hle := hn.turn client
  refine ⟨h.left.trans hle, fun ht => ?_⟩
  have hturn : (s.clients client).turn = turn := by
    have := h.left
    omega
  rw [hn.same client (ht.trans hturn.symm)]
  exact h.right hturn

-- That time passes is like something that others do.
theorem keeps_act
    (h : ∀ s₁, Next s s₁ → Inv P owners s₁ → Clear s₁ a → ∀ r s₂, DoesAt a s₁ r s₂ →
      Inv P owners s₂ ∧ Next s₁ s₂ ∧ Keeps P owners Q s₂ (.mk (next r))) :
    Keeps P owners Q s (.mk (.act a next)) := by
  refine .act fun s₁ hn hi r s₂ ⟨⟨now, _, hd⟩, hclear⟩ => ?_
  have hnow : Next s₁ { s₁ with now := now } :=
    ⟨fun _ => List.Subset.refl _, fun _ => le_refl _, fun _ _ => rfl⟩
  have ⟨hinv, hnext, hrest⟩ := h _ (hn.trans hnow) ⟨hi.retained, hi.current⟩ hclear r s₂ hd
  exact ⟨hinv, hnow.trans hnext, hrest⟩

theorem keeps_clock : Keeps P owners Any s clock := by
  refine keeps_act fun s₁ _ hi _ r s₂ hd => ?_
  obtain ⟨_, rfl⟩ : r = s₁.now ∧ s₂ = s₁ := hd
  exact ⟨hi, .refl _, .pure trivial⟩

theorem keeps_getHead : Keeps P owners Any s (getHead owner) := by
  refine keeps_act fun s₁ _ hi _ r s₂ hd => ?_
  obtain rfl : s₂ = s₁ := by
    cases hd <;> rfl
  refine ⟨hi, .refl _, ?_⟩
  cases r
  case ok => exact .pure trivial
  case error err =>
    cases err
    case notFound => exact .pure trivial
    all_goals exact .throw

theorem keeps_save (hm : Planned P expected now current m) :
    Keeps P owners (fun s saved => saved = true → Saved owner current s m.timestamp) s
      (save owner m) := by
  refine keeps_act fun s₁ _ hi hclear r s₂ ⟨hnear, hd⟩ => ?_
  replace hclear : m.expected = none → ∀ i ∈ s₁.issued owner, i.deadline ≤ m.now := hclear
  rw [hm.guard, hm.now] at hclear
  unfold State.save at hd
  split at hd
  case isTrue =>
    cases hd <;> exact ⟨hi, .refl _, .throw⟩
  case isFalse =>
    split at hd
    case isFalse =>
      cases hd
      case done => exact ⟨hi, .refl _, .pure fun h => nomatch h⟩
      case failed | replyLost => exact ⟨hi, .refl _, .throw⟩
    case isTrue hlive =>
      have ⟨hinv, hnext⟩ := hi.committed hm (hlive.trans hm.guard) hnear hclear
      cases hd
      case done =>
        refine ⟨hinv, hnext, .pure fun _ =>
          ⟨⟨m.timestamp, m.snapshot, m.deadline⟩, ?_, rfl, hm.snapshot⟩⟩
        simp
      case failed => exact ⟨hi, .refl _, .throw⟩
      case replyLost => exact ⟨hinv, hnext, .throw⟩

theorem keeps_saveRounds (current : Snapshot) (rounds : Nat) :
    Keeps P owners (Saved owner current) s (saveRounds P owner current rounds) := by
  induction rounds generalizing s
  case zero => exact .throw
  case succ hi =>
    refine .bind keeps_getHead fun s expected _ => ?_
    split
    case isFalse => exact .throw
    case isTrue =>
      refine .bind keeps_clock fun s now _ => ?_
      refine .bindLift fun m hm => ?_
      refine .bind (keeps_save (planned hm)) fun s saved hsaved => ?_
      cases saved
      case false => exact hi
      case true => exact .pure (hsaved rfl)

variable {timestamp : Int} {view : Text → Option Bytes}

-- A checkpoint that is found is of the state that the client has.
def Matches (P : Platform) (view : Text → Option Bytes) (found : Option Checkpoint) : Prop :=
  ∀ c, found = some c → ∀ k, c.hashes.lookup k = (view k).map P.hash

theorem keeps_getCheckpoint (own : Bool) (hzero : timestamp ≠ 0)
    (hown : own = true → Of owner timestamp view s) :
    Keeps P owners (fun _ found => Matches P view found) s (getCheckpoint owner timestamp own) := by
  refine keeps_act fun s₁ hn hi hclear r s₂ hd => ?_
  obtain rfl : s₂ = s₁ := by
    cases hd <;> rfl
  refine ⟨hi, .refl _, ?_⟩
  have hlive :
      ∀ c, r = .ok c → live s₂.now ((s₂.records owner).checkpoints timestamp) = some c := by
    intro c hr
    subst hr
    generalize hr : Except.ok c = r at hd
    cases hd
    case failed | replyLost => contradiction
    case done =>
      simp only [get] at hr
      split at hr
      case h_1 hc' =>
        cases hr
        exact hc'
      case h_2 => contradiction
  cases r
  case error err =>
    cases err
    case notFound => exact .pure fun _ h => by cases h
    all_goals exact .throw
  case ok c =>
    refine .pure fun c' hc' k => ?_
    cases hc'
    have hl := hlive c rfl
    cases hrow : (s₂.records owner).checkpoints timestamp
    case none => simp [hrow, live] at hl
    case some row =>
      obtain ⟨c', d⟩ := row
      simp only [hrow, live, Option.ite_none_right_eq_some, Option.some.injEq] at hl
      obtain ⟨_, rfl⟩ := hl
      obtain ⟨i, hissued, ht, _, hc⟩ := (hi.retained owner).checkpoint timestamp _ d hrow
      rcases hclear with hself | hforeign
      case inr => exact absurd ht (hforeign i hissued)
      case inl =>
        have hof := (stable_of timestamp view).later (hown hself) hn
        obtain ⟨j, hj, htj, hview⟩ := hof.resolve_left hzero
        obtain rfl := (hi.retained owner).eq_of_timestamp hissued hj (ht.trans htj.symm)
        rw [hc, Checkpoint.lookup_of, ← hview]

theorem keeps_loadCheckpoint (own : Bool) (hown : own = true → Of owner timestamp view s) :
    Keeps P owners (fun _ found => Matches P view found) s
      (loadCheckpoint owner timestamp own) := by
  unfold loadCheckpoint
  have hstable : Stable Next fun s => own = true → Of owner timestamp view s :=
    ⟨fun h hn ht => (stable_of timestamp view).later (h ht) hn⟩
  split
  case isTrue => exact .pure fun _ h => nomatch h
  case isFalse hzero =>
    refine .bindKeep hstable hown keeps_clock fun s now hown _ => ?_
    split
    case isTrue => exact .pure fun _ h => nomatch h
    case isFalse =>
      refine .bind (keeps_getCheckpoint own hzero hown) fun s found hfound => ?_
      cases found
      case none => exact .pure hfound
      case some =>
        exact .guard fun _ => .pure hfound

theorem keeps_sync (own : Bool) (current : Snapshot)
    (hown : own = true → Of owner timestamp view s) :
    Keeps P owners (fun s r => r.apply view = current.lookup ∧ Saved owner current s r.timestamp) s
      (sync P owner timestamp own current) := by
  refine .guard fun _ => ?_
  refine .guard fun _ => ?_
  refine .bind (keeps_loadCheckpoint own hown) fun s found hfound => ?_
  split
  case isFalse => exact .throw
  case isTrue =>
    refine .bind (keeps_saveRounds current 32) fun s timestamp hsaved => ?_
    exact .pure ⟨compare_apply hfound, hsaved⟩

theorem keeps_begin (client : Nat) :
    Keeps P owners (fun s r => ∃ view, Waits client r.fst view s ∧
      Of (owners client) r.snd view s) s
      (begin client) := by
  refine keeps_act fun s₁ _ hi _ r s₂ ⟨hr, hd⟩ => ?_
  subst hr hd
  have hnext : Next s₁ (s₁.begin client) := Next.update (Nat.lt_succ_self _)
  have hcurrent := hi.current client
  refine ⟨hi.update ⟨hcurrent.fresh, hcurrent.holds⟩, hnext, .pure ?_⟩
  refine ⟨(s₁.clients client).view, ⟨?_, fun _ => ?_⟩, ?_⟩
  · simp
  · simp
  · cases hp : (s₁.clients client).passed
    case none => exact .inl (hcurrent.fresh hp)
    case some current =>
      have ⟨hview, i, hissued, ht, hs⟩ := hcurrent.holds current hp
      exact .inr ⟨i, hissued, ht, by rw [hs, hview]⟩

theorem keeps_finish (hw : Waits client turn view s) (hr : r.apply view = current.lookup)
    (hs : Saved (owners client) current s r.timestamp) :
    Keeps P owners Any s (finish client turn r current) := by
  refine keeps_act fun s₁ hn hi _ _ s₂ hd => ?_
  subst hd
  unfold State.finish
  dsimp only
  split
  case isFalse => exact ⟨hi, .refl _, .pure trivial⟩
  case isTrue hturn =>
    have hview := ((stable_waits client turn view).later hw hn).right hturn
    have ⟨i, hissued, ht, hsnap⟩ := hs
    have hcurrent : Current (s₁.issued (owners client))
        ⟨r.apply (s₁.clients client).view, r.timestamp, turn + 1, some current⟩ := by
      refine ⟨nofun, fun current' hc => ?_⟩
      cases hc
      exact ⟨by rw [hview, hr], i, hn.issued _ hissued, ht, hsnap⟩
    exact ⟨hi.update hcurrent, Next.update (hturn ▸ Nat.lt_succ_self turn), .pure trivial⟩

theorem keeps_call (op : Op) : Keeps P owners Any s (op.call P owners) := by
  refine .bind (keeps_begin op.client) fun s r ⟨view, hw, hof⟩ => ?_
  have hown : op.number.isNone = true →
      Of (owners op.client) (op.number.getD r.snd) view s := by
    intro hnone
    rw [Option.isNone_iff_eq_none.mp hnone]
    exact hof
  refine .bindKeep (stable_waits op.client r.fst view) hw (keeps_sync _ op.current hown) ?_
  exact fun s result hw h => keeps_finish hw h.left h.right

end Calls

abbrev System := Config Act Reply (Except Err Unit) State

abbrev Reachable (P : Platform) (owners : Nat → PublicKey) : System → Prop :=
  Interleaving.Reachable Does (fun op : Op => (op.call P owners).run) .init

-- All actions so far were clear.
abbrev ReachableClear (P : Platform) (owners : Nat → PublicKey) : System → Prop :=
  Interleaving.Reachable DoesClear (fun op : Op => (op.call P owners).run) .init

theorem ReachableClear.inv (h : ReachableClear P owners c) : Inv P owners c.shared :=
  (Interleaving.Reachable.sound Next.refl Next.trans
    (fun op _ _ => (keeps_call op).safe) .init h).inv

section Samples

def Sample.platform : Platform where
  hash := fun value => 0 :: value
  valid := fun _ => true
  hash_injective := fun _ _ h => (List.cons.inj h).right
  hash_ne_empty := fun _ => List.cons_ne_nil _ _

def Sample.snapshot (value : String) : Snapshot :=
  (∅ : Snapshot).insert (ascii "k") (ascii value)

variable (P : Platform) (owners : Nat → PublicKey) {β : Type} {b : β}

theorem Reachable.of_run (f : System → β) (t : List (Turn Op Int))
    (h : ((Config.init .init : System).run perform (fun op : Op => (op.call P owners).run) t).map
    f =
      some b) : ∃ c, Reachable P owners c ∧ f c = b :=
  Interleaving.Reachable.exists_run does_of_perform h

-- The clear ones of the actions that do not fail.
def performClear (now : Int) (a : Act) (s : State) : Option (Reply a × State) :=
  if Clear s a then perform now a s else none

theorem ReachableClear.of_run (f : System → β) (t : List (Turn Op Int))
    (h : ((Config.init .init : System).run performClear (fun op : Op => (op.call P owners).run)
      t).map f = some b) : ∃ c, ReachableClear P owners c ∧ f c = b := by
  refine Interleaving.Reachable.exists_run (fun now a s r s' hp => ?_) h
  simp only [performClear, Option.ite_none_right_eq_some] at hp
  exact ⟨does_of_perform now a s r s' hp.right, hp.left⟩

-- A client synchronises twice.
def Sample.twice : List (Turn Op Int) :=
  [.call 0 ⟨0, none, Sample.snapshot "1"⟩] ++ List.replicate 5 (.act 0 5000000) ++
  [.call 0 ⟨0, none, Sample.snapshot "2"⟩] ++ List.replicate 7 (.act 0 7000000)

-- Client 1 reads the clock, then client 0 reads it in the same millisecond. Client 1 commits at
-- once, and client 0 a day later, when the head of client 1 is gone. Both get the same timestamp.
-- Client 1 then synchronises with what client 0 had passed.
def Sample.late : List (Turn Op Int) :=
  [.call 1 ⟨1, none, Sample.snapshot "1"⟩] ++ List.replicate 3 (.act 1 5000000) ++
  [.call 0 ⟨0, none, Sample.snapshot "2"⟩] ++ List.replicate 3 (.act 0 5000500) ++
  List.replicate 2 (.act 1 5000600) ++ List.replicate 2 (.act 0 86400005000000) ++
  [.call 1 ⟨1, none, Sample.snapshot "2"⟩] ++ List.replicate 7 (.act 1 86400005000100)

end Samples

end GizClaw.PeerSync

import GizClaw.Buffer.Growable
import GizClaw.Buffer.Theorems.Block
import GizClaw.Lib.Wakeup

-- Which calls of the buffers are told that they can go on, and which are not.

namespace GizClaw.Buffer

open Monitor
open Reachable (exists_play lone awake)

variable {T : Type}

attribute [local simp] Fixed.isFull Storage.reset

@[local simp]
def Op.isReader : Op T → Bool
  | .read _ | .next => true
  | _ => false

@[local simp]
def Op.isWriter : Op T → Bool
  | .write .. | .add _ => true
  | _ => false

def Fixed.hasRoom (s : Fixed T) : Bool :=
  s.storage.len < s.storage.buf.length

-- There is something to read, or nothing will come.
@[local simp]
def Fixed.ready (s : Fixed T) : Bool :=
  !s.isEmpty || s.closeWrite

-- A reader can go on when the buffer is ready, and a writer when there is room or nothing may be
-- written.
@[local simp]
def Fixed.free (op : Op T) (s : Fixed T) : Bool :=
  (op.isReader && s.ready) || (op.isWriter && (s.hasRoom || s.closeWrite))

theorem Fixed.ready_of_isEmpty {s s' : Fixed T} (he : s.isEmpty → s'.isEmpty)
    (hc : s'.closeWrite → s.closeWrite) (hr : s'.ready) : s.ready := by
  simp only [Fixed.ready, Bool.or_eq_true, Bool.not_eq_true'] at hr ⊢
  refine hr.imp (fun hne => ?_) hc
  exact Bool.eq_false_iff.mpr fun hs => absurd (he hs) (Bool.eq_false_iff.mp hne)

theorem Fixed.isEmpty_discard {s : Fixed T} (hn : 0 ≤ n) (he : s.isEmpty) :
    { s with storage := s.storage.discard n }.isEmpty := by
  have he : s.storage.head = s.storage.tail := of_decide_eq_true he
  refine decide_eq_true ?_
  by_cases hlt : s.storage.len < n
  case pos => simp only [Storage.discard, if_pos hlt]
  case neg =>
    simp only [Storage.discard, if_neg hlt]
    simp only [Storage.len] at hlt
    omega

namespace Block

-- The calls that may wait: a write only while something is left to write.
@[local simp]
def waits : Op T → Bool
  | .write p _ => !p.isEmpty
  | .add _ | .read _ | .next => true
  | _ => false

def other (op : Op T) : Op T → Bool :=
  if op.isReader then Op.isWriter else Op.isReader

-- The storage is a queue, or it has no cells at all.
structure Sound (s : Fixed T) : Prop where
  closing : s.closeErr.isSome → s.closeWrite
  cells : (s.storage.buf = [] ∧ s.isEmpty) ∨ ∃ size q, s.storage.Holds size q

variable {s s' : Fixed T} {op m : Op T}

theorem closeWrite_of_writeFault (hs : Sound s) (h : s.writeFault = some err) : s.closeWrite := by
  simp only [Fixed.writeFault] at h
  split at h
  case h_1 hc => exact hs.closing (by rw [hc]; rfl)
  case h_2 =>
    split at h
    case isTrue ho => exact ho
    case isFalse => cases h

theorem not_closeWrite_of_writeFault (h : s.writeFault = none) : ¬s.closeWrite := by
  simp only [Fixed.writeFault] at h
  split at h
  case h_1 => cases h
  case h_2 =>
    split at h
    case isTrue => cases h
    case isFalse ho => exact ho

theorem not_free_of_isEmpty (hop : op.isReader) (he : s.isEmpty) (ho : ¬s.closeWrite) :
    ¬s.free op := by
  cases op <;> simp_all

theorem not_free_of_isFull (hop : op.isWriter) (hf : s.isFull) (ho : ¬s.closeWrite) :
    ¬s.free op := by
  have : ¬s.hasRoom := by simp_all [Fixed.hasRoom]
  cases op <;> simp_all

-- A write that goes on has left no room.
theorem isFull_append (hs : Sound s) (hf : ¬s.isFull) (hr : p.drop (s.storage.append p).snd ≠ []) :
    { s with storage := (s.storage.append p).fst }.isFull := by
  rcases hs.cells with ⟨hb, he⟩ | ⟨size, q, hq⟩
  case inl => simp_all [Fixed.isEmpty, Storage.len]
  case inr =>
    obtain ⟨hq', hn⟩ := hq.append p
    refine (Fixed.isFull_iff hq').mpr ?_
    have hlt : (s.storage.append p).snd < p.length := by simpa using hr
    have hle := hq.length_le
    simp only [List.length_append, List.length_take]
    omega

theorem free_of_drop {storage : Storage T} (he : s.isEmpty → { s with storage }.isEmpty)
    (hm : ¬m.isWriter) (h : { s with storage }.free m) : s.free m := by
  simp only [Fixed.free, hm, Bool.false_and, Bool.or_false, Bool.and_eq_true] at h ⊢
  exact ⟨h.left, Fixed.ready_of_isEmpty he id h.right⟩

-- Calls of one kind are free at the same time.
theorem other_of_free (hw : waits op) (hf : ¬s.free op) (hm : s.free m) : other op m := by
  cases op <;> cases m <;> simp_all [other]

variable [Inhabited T]

def body : Body (Fixed T) (Op T) (Result T) :=
  fun _ op s => step s op

-- Elements are only dropped while no writer waits, and a call does not begin to wait while a call
-- of the other kind waits.
def ordered (c : System (Fixed T) (Op T) (Result T)) (op : Op T) : Bool :=
  match op with
  | .discard n => 0 ≤ n && !c.calls.any (Call.waitsFor Op.isWriter)
  | .reset => !c.calls.any (Call.waitsFor Op.isWriter)
  | op => !(step c.shared op).snd.snd.isWait || !c.calls.any (Call.waitsFor (other op))

-- What a section can do.
inductive Effect (s : Fixed T) (op : Op T) :
    Fixed T → Notice → Outcome (Op T) (Result T) → Prop
  | finish {r : Result T} (hc : waits op → s.closeWrite) : Effect s op s .silent (.done r)
  | wait (hw : waits op) (hf : ¬s.free op) (ho : ¬s.closeWrite) : Effect s op s .silent (.wait op)
  | move {storage : Storage T} {outcome : Outcome (Op T) (Result T)}
    (hm : ¬(s.isEmpty ∧ s.isFull))
    (hw : ∀ k, outcome = .wait k → waits k ∧ ¬{ s with storage }.free k ∧ ¬s.closeWrite) :
    Effect s op { s with storage } .one outcome
  | drop {storage : Storage T} {r : Result T} (hop : (∃ n, op = .discard n) ∨ op = .reset)
    (hb : storage.buf = s.storage.buf) (he : s.isEmpty → { s with storage }.isEmpty) :
    Effect s op { s with storage } .silent (.done r)
  | close {closeErr : Option Error} {r : Result T} (hs : ¬waits op) :
    Effect s op { s with closeErr, closeWrite := true } .all (.done r)

variable {notice : Notice} {outcome : Outcome (Op T) (Result T)}

theorem step_effect (hs : Sound s) (hd : ∀ n, op = .discard n → 0 ≤ n)
    (h : step s op = (s', notice, outcome)) : Effect s op s' notice outcome := by
  cases op
  case discard n =>
    simp only [step] at h
    split at h
    case h_1 => cases h; exact .finish (by rintro ⟨⟩)
    case h_2 =>
      cases h
      refine .drop (.inl ⟨n, rfl⟩) ?_ (Fixed.isEmpty_discard (hd n rfl))
      simp only [Storage.discard]
      split <;> rfl
  case read k | next =>
    simp only [step] at h
    split at h
    case h_1 hc => cases h; exact .finish fun _ => hs.closing (by rw [hc]; rfl)
    case h_2 =>
      split at h
      case isTrue he =>
        split at h
        case isTrue ho => cases h; exact .finish fun _ => ho
        case isFalse ho => cases h; exact .wait rfl (not_free_of_isEmpty rfl he ho) ho
      case isFalse he => cases h; exact .move (fun h => he h.left) (by rintro _ ⟨⟩)
  case write =>
    simp only [step] at h
    split at h
    case h_1 hf => cases h; exact .finish fun _ => closeWrite_of_writeFault hs hf
    case h_2 hf =>
      have ho := not_closeWrite_of_writeFault hf
      split at h
      case isTrue hp => cases h; exact .finish fun hw => by simp [hp] at hw
      case isFalse hp =>
        split at h
        case isTrue hfull =>
          cases h
          exact .wait (by simp [hp]) (not_free_of_isFull rfl hfull ho) ho
        case isFalse hfull =>
          cases h
          refine .move (fun h => hfull h.right) fun k hk => ?_
          split at hk
          case isTrue => cases hk
          case isFalse hr =>
            cases hk
            refine ⟨by simp [hr], ?_, ho⟩
            exact not_free_of_isFull rfl (isFull_append hs hfull hr) ho
  case add =>
    simp only [step] at h
    split at h
    case h_1 hf => cases h; exact .finish fun _ => closeWrite_of_writeFault hs hf
    case h_2 hf =>
      split at h
      case isTrue hfull =>
        cases h
        have ho := not_closeWrite_of_writeFault hf
        exact .wait rfl (not_free_of_isFull rfl hfull ho) ho
      case isFalse hfull => cases h; exact .move (fun h => hfull h.right) (by rintro _ ⟨⟩)
  case reset =>
    cases h
    exact .drop (.inr rfl) rfl fun _ => by simp [Fixed.isEmpty]
  case len | bytes => cases h; exact .finish (by rintro ⟨⟩)
  case closeWrite =>
    simp only [step] at h
    split at h
    case isTrue => cases h; exact .finish (by rintro ⟨⟩)
    case isFalse => cases h; exact .close (by rintro ⟨⟩)
  case closeWithError =>
    simp only [step] at h
    split at h
    case h_1 => cases h; exact .finish (by rintro ⟨⟩)
    case h_2 => cases h; exact .close (by rintro ⟨⟩)

theorem Sound.step (hs : Sound s) (hd : ∀ n, op = .discard n → 0 ≤ n)
    (h : Block.step s op = (s', notice, outcome)) : Sound s' := by
  have he := step_effect hs hd h
  refine ⟨?_, ?_⟩
  · cases he <;> first | exact hs.closing | exact fun _ => rfl
  · rcases hs.cells with ⟨hb, hempty⟩ | ⟨size, q, hq⟩
    case inr =>
      have ⟨q', hq', _⟩ := step_spec hq hd h
      exact .inr ⟨size, q', hq'⟩
    case inl =>
      -- No room and nothing to read: no element moves.
      have hfull : s.isFull := by simp_all [Fixed.isEmpty, Storage.len]
      cases he
      case finish | wait | close => exact .inl ⟨hb, hempty⟩
      case move hm _ => exact absurd ⟨hempty, hfull⟩ hm
      case drop hb' he => exact .inl ⟨hb'.trans hb, he hempty⟩

variable {c : System (Fixed T) (Op T) (Result T)}

theorem nonneg_of_ordered (hg : ordered c op) (h : op = .discard n) : 0 ≤ n := by
  subst h
  simp only [ordered, Bool.and_eq_true, decide_eq_true_eq] at hg
  exact hg.left

-- Whoever drops elements leaves no writer behind.
theorem not_isWriter_of_ordered (hg : ordered c op) (hop : (∃ n, op = .discard n) ∨ op = .reset)
    (hx : x ∈ c.calls) (hm : x.phase = .waiting m) : ¬m.isWriter := by
  intro hw
  have hany : c.calls.any (Call.waitsFor Op.isWriter) :=
    List.any_eq_true.mpr ⟨x, hx, Call.waitsFor_iff.mpr ⟨m, hm, hw⟩⟩
  rcases hop with ⟨n, rfl⟩ | rfl <;> simp [ordered, -List.any_eq_true, hany] at hg

theorem not_other_of_ordered (hg : ordered c op) (hw : waits op)
    (hwait : (step c.shared op).snd.snd.isWait) (hx : x ∈ c.calls)
    (hm : x.phase = .waiting m) : ¬other op m := by
  intro ho
  have hany : c.calls.any (Call.waitsFor (other op)) :=
    List.any_eq_true.mpr ⟨x, hx, Call.waitsFor_iff.mpr ⟨m, hm, ho⟩⟩
  cases op <;> simp_all [ordered]

theorem passes (hs : Sound c.shared) (hg : ordered c op)
    (h : step c.shared op = (s', notice, outcome)) :
    Passes waits Fixed.free Fixed.closeWrite c op s' notice outcome := by
  have hwait : (step c.shared op).snd.snd = outcome := by rw [h]
  cases step_effect hs (fun _ => nonneg_of_ordered hg) h
  case finish hc =>
    exact ⟨nofun, .inl, fun _ _ _ hx => hx, fun _ hw hnc => absurd (hc hw) hnc⟩
  case wait hw hf ho =>
    refine ⟨?_, .inl, fun _ _ _ hx => hx, fun _ _ _ x hx hfree => ?_⟩
    · rintro k ⟨⟩
      exact ⟨hw, hf, ho⟩
    · have ⟨m, hm, hfree⟩ := Call.waitsFor_iff.mp hfree
      exact not_other_of_ordered hg hw (by rw [hwait]; rfl) hx hm (other_of_free hw hf hfree)
  case move hw => exact ⟨hw, .inl, nofun, nofun⟩
  case drop hop hb he =>
    refine ⟨nofun, .inl, fun _ x hx hfree => ?_, fun _ hw => ?_⟩
    · have ⟨m, hm, hfree⟩ := Call.waitsFor_iff.mp hfree
      have hnw := not_isWriter_of_ordered hg hop hx hm
      exact Call.waitsFor_iff.mpr ⟨m, hm, free_of_drop he hnw hfree⟩
    · rcases hop with ⟨n, rfl⟩ | rfl <;> cases hw
  case close _ => exact ⟨nofun, fun _ => .inr rfl, nofun, nofun⟩

-- In every run in which calls are ordered, no call is left waiting.
theorem not_stuck_of_reachable
    (h : Monitor.Reachable .condition body ordered (block buf) c) : ¬c.stuck Fixed.free := by
  have hs : Sound (block buf) := by
    refine ⟨nofun, ?_⟩
    cases buf
    case nil => exact .inl ⟨rfl, rfl⟩
    case cons t l => exact .inr ⟨_, _, Storage.Holds.init (List.cons_ne_nil t l)⟩
  have hawake : Sound c.shared ∧ Awake waits Fixed.free Fixed.closeWrite c := by
    refine awake hs ?_ h
    intro c i k s' notice outcome hs hg hb
    exact ⟨hs.step (fun _ => nonneg_of_ordered hg) hb, passes hs hg hb⟩
  exact hawake.right.not_stuck

end Block

-- Whether a reader is in the channel, or on the way to it.
def parked {σ κ ρ : Type} (c : System σ κ ρ) : Bool :=
  c.calls.any (·.phase.isParked)

namespace Ring

variable [Inhabited T]

def body : Body (Fixed T) (Op T) (Result T) :=
  fun _ op s => step s op

-- While a reader waits nothing is written but with `Add`, and no other reader begins to wait.
def ordered (c : System (Fixed T) (Op T) (Result T)) (op : Op T) : Bool :=
  !parked c ||
    match op with
    | .write .. => false
    | .discard n => 0 ≤ n
    | op => !(step c.shared op).snd.snd.isWait

variable {c : System (Fixed T) (Op T) (Result T)} {op : Op T} {s s' : Fixed T} {notice : Notice}
  {outcome : Outcome (Op T) (Result T)}

theorem waits_of_step (h : step s op = (s', notice, .wait k)) :
    op.isReader ∧ s' = s ∧ notice = .silent ∧ ¬s.ready := by
  cases op <;> simp only [step] at h
  case read | next =>
    split at h
    case h_1 => cases h
    case h_2 =>
      split at h
      case isFalse => cases h
      case isTrue he =>
        split at h
        case isTrue => cases h
        case isFalse ho => cases h; exact ⟨rfl, rfl, rfl, by simp [he, ho]⟩
  all_goals (try split at h) <;> cases h

-- Only `Write` and a negative `Discard` put elements where there are none without a notice.
theorem ready_of_silent (hw : ∀ p wn, op ≠ .write p wn) (hd : ∀ n, op = .discard n → 0 ≤ n)
    (h : step s op = (s', .silent, outcome)) (hr : s'.ready) : s.ready := by
  cases op <;> simp only [step] at h
  case write p wn => exact absurd rfl (hw p wn)
  case discard n =>
    split at h
    case h_1 => cases h; exact hr
    case h_2 =>
      cases h
      exact Fixed.ready_of_isEmpty (Fixed.isEmpty_discard (hd n rfl)) id hr
  case read k | next =>
    split at h
    case h_1 => cases h; exact hr
    case h_2 =>
      split at h
      case isFalse he => simp [he]
      case isTrue => split at h <;> cases h <;> exact hr
  case add =>
    split at h
    case h_1 => cases h; exact hr
    case h_2 => cases h
  case reset =>
    cases h
    have he : { s with storage := s.storage.reset }.isEmpty := by
      simp [Fixed.isEmpty]
    exact Fixed.ready_of_isEmpty (fun _ => he) id hr
  case len | bytes => cases h; exact hr
  case closeWrite =>
    split at h
    case isTrue => cases h; exact hr
    case isFalse => cases h
  case closeWithError =>
    split at h
    case h_1 => cases h; exact hr
    case h_2 =>
      cases hc : s.closeWrite
      case true => simp [hc]
      case false => simp [hc] at h

theorem tells (hg : ordered c op) (h : step c.shared op = (s', notice, outcome)) :
    Tells Fixed.ready c s' notice outcome := by
  have hout : (step c.shared op).snd.snd = outcome := by rw [h]
  refine ⟨fun hw => ?_, fun hn hp hr => ?_⟩
  · cases outcome
    case yield | done => cases hw
    case wait =>
      have ⟨hop, hs, hn, hr⟩ := waits_of_step h
      refine ⟨hn, hs ▸ hr, fun x hx hp => ?_⟩
      have hpk : parked c := List.any_eq_true.mpr ⟨x, hx, hp⟩
      cases op <;> simp [ordered, hpk, hout, Outcome.isWait] at hg hop
  · have hpk : parked c := List.any_eq_true.mpr hp
    simp only [ordered, hpk, Bool.not_true, Bool.false_or] at hg
    refine ready_of_silent (fun p wn hop => ?_) (fun n hop => ?_) (hn ▸ h) hr
    · subst hop
      cases hg
    · subst hop
      exact of_decide_eq_true hg

theorem not_stuck_of_reachable (h : Monitor.Reachable .channel body ordered s₀ c) :
    ¬c.stuck fun _ => Fixed.ready :=
  (lone (fun _ _ _ _ _ _ => tells) h).not_stuck

end Ring

namespace Growable

@[local simp]
def ready (s : Growable T) : Bool :=
  !s.buf.isEmpty || s.closeWrite

theorem ready_of_nil {s s' : Growable T} (hr : s'.ready) (hb : s.buf = [] → s'.buf = [])
    (hc : s'.closeWrite = s.closeWrite) : s.ready := by
  cases hs : s.buf
  case nil => simpa [hs, hb hs, hc] using hr
  case cons => simp [hs]

variable [Inhabited T]

-- No reader begins to wait while another one waits.
def ordered (c : System (Growable T) (Call T) (Result T)) (call : Call T) : Bool :=
  !parked c || !(c.shared.step call).snd.snd.isWait

variable {c : System (Growable T) (Call T) (Result T)} {call : Call T} {s s' : Growable T}
  {notice : Notice} {outcome : Outcome (Call T) (Result T)}

theorem step_wait (h : s.step call = (s', notice, .wait k)) :
    s' = s ∧ notice = .silent ∧ ¬s.ready := by
  cases call
  case removing => cases h
  case removeIf p => cases p <;> cases h
  case plain op =>
    cases op <;> simp only [step, plainStep] at h
    case read =>
      split at h
      case h_1 => cases h
      case h_2 =>
        split at h
        case isFalse => cases h
        case isTrue he =>
          split at h
          case isTrue => cases h
          case isFalse ho => cases h; exact ⟨rfl, rfl, by simp [he, ho]⟩
    case next =>
      split at h
      case h_1 => cases h
      case h_2 =>
        split at h
        case h_2 => cases h
        case h_1 he =>
          split at h
          case isTrue => cases h
          case isFalse ho => cases h; exact ⟨rfl, rfl, by simp [he, ho]⟩
    case discard =>
      split at h
      case h_1 => cases h
      case h_2 => split at h <;> (try split at h) <;> cases h
    all_goals (try split at h) <;> cases h

theorem ready_of_silent (h : s.step call = (s', .silent, outcome)) (hr : s'.ready) : s.ready := by
  cases call
  case removeIf p => cases p <;> cases h <;> exact hr
  case removing =>
    cases h
    exact ready_of_nil hr (fun hb => by simp [hb, compactLoop]) rfl
  case plain op =>
    cases op <;> simp only [step, plainStep] at h
    case write | add =>
      split at h
      case h_1 => cases h; exact hr
      case h_2 => cases h
    case discard =>
      split at h
      case h_1 => cases h; exact hr
      case h_2 =>
        split at h
        · cases h
          exact ready_of_nil hr (fun _ => rfl) rfl
        · split at h
          · cases h
            exact hr
          · cases h
            exact ready_of_nil hr (fun hb => by simp [drop, hb]) rfl
    case read =>
      split at h
      case h_1 => cases h; exact hr
      case h_2 =>
        split at h
        case isTrue => split at h <;> cases h <;> exact hr
        case isFalse he => simp [he]
    case next =>
      split at h
      case h_1 => cases h; exact hr
      case h_2 =>
        split at h
        case h_1 => split at h <;> cases h <;> exact hr
        case h_2 he => simp [he]
    case reset => cases h; exact ready_of_nil hr (fun _ => rfl) rfl
    case len | bytes => cases h; exact hr
    case closeWrite =>
      split at h
      case isTrue => cases h; exact hr
      case isFalse => cases h
    case closeWithError =>
      split at h
      case h_1 => cases h; exact hr
      case h_2 =>
        cases hc : s.closeWrite
        case true => simp [hc]
        case false => simp [hc] at h

theorem tells (hg : ordered c call) (h : c.shared.step call = (s', notice, outcome)) :
    Tells ready c s' notice outcome := by
  have hout : (c.shared.step call).snd.snd = outcome := by rw [h]
  refine ⟨fun hw => ?_, fun hn hp hr => ready_of_silent (hn ▸ h) hr⟩
  cases outcome
  case yield | done => cases hw
  case wait =>
    have ⟨hs, hn, hr⟩ := step_wait h
    refine ⟨hn, hs ▸ hr, fun x hx hp => ?_⟩
    have hpk : parked c := List.any_eq_true.mpr ⟨x, hx, hp⟩
    simp only [ordered, hpk, hout, Bool.not_true, Bool.false_or] at hg
    cases hg

theorem not_stuck_of_reachable (h : Reachable .channel body ordered s₀ c) :
    ¬c.stuck fun _ => ready :=
  (lone (fun _ _ _ _ _ _ => tells) h).not_stuck

end Growable

-- In every run in which calls are ordered, no call is left waiting.
theorem no_lost_wakeup [Inhabited T] :
    (∀ (buf : List T) (c : System (Fixed T) (Op T) (Result T)),
      Reachable .condition Block.body Block.ordered (Block.block buf) c → ¬c.stuck Fixed.free) ∧
    (∀ (size : Nat) (c : System (Fixed T) (Op T) (Result T)),
      Reachable .channel Ring.body Ring.ordered (Ring.ringN size) c →
        ¬c.stuck fun _ => Fixed.ready) ∧
    (∀ c : System (Growable T) (Growable.Call T) (Growable.Result T),
      Reachable .channel Growable.body Growable.ordered {} c → ¬c.stuck fun _ => Growable.ready) :=
  ⟨fun _ _ => Block.not_stuck_of_reachable, fun _ _ => Ring.not_stuck_of_reachable,
    fun _ => Growable.not_stuck_of_reachable⟩

-- Readers that wait are told: two of a bounded buffer one after the other, and one of the others.
theorem no_lost_wakeup_readers :
    (∃ c : System (Fixed Nat) (Op Nat) (Result Nat),
      (Reachable .condition Block.body Block.ordered (Block.block [0, 0]) c ∧
        c.calls.map Call.phase = [.done (.next (.ok 1)), .woken .next, .done (.write 2 none)]) ∧
      ¬c.stuck Fixed.free) ∧
    (∃ c : System (Fixed Nat) (Op Nat) (Result Nat),
      (Reachable .channel Ring.body Ring.ordered (Ring.ringN 1) c ∧
        c.calls.map Call.phase = [.woken .next, .done (.err none)]) ∧
      ¬c.stuck fun _ => Fixed.ready) ∧
    (∃ c : System (Growable Nat) (Growable.Call Nat) (Growable.Result Nat),
      (Reachable .channel Growable.body Growable.ordered {} c ∧
        c.results = [some (.plain (.next (.ok 1))), some (.plain (.write 2 none))]) ∧
      ¬c.stuck fun _ => Growable.ready) := by
  have ⟨hblock, hring, hgrow⟩ := no_lost_wakeup (T := Nat)
  have ⟨c₁, h₁⟩ : ∃ c : System (Fixed Nat) (Op Nat) (Result Nat),
      Reachable .condition Block.body Block.ordered (Block.block [0, 0]) c ∧
      c.calls.map Call.phase = [.done (.next (.ok 1)), .woken .next, .done (.write 2 none)] :=
    exists_play [.call .next, .call .next, .call (.write [1, 2] 0), .run 0 none,
      .run 1 none, .run 2 (some 0), .run 0 (some 1)] (by decide)
  have ⟨c₂, h₂⟩ : ∃ c : System (Fixed Nat) (Op Nat) (Result Nat),
      Reachable .channel Ring.body Ring.ordered (Ring.ringN 1) c ∧
      c.calls.map Call.phase = [.woken .next, .done (.err none)] :=
    exists_play [.call .next, .call (.add 7), .run 0 none, .park 0, .run 1 (some 0)]
      (by decide)
  have ⟨c₃, h₃⟩ : ∃ c : System (Growable Nat) (Growable.Call Nat) (Growable.Result Nat),
      Reachable .channel Growable.body Growable.ordered {} c ∧
      c.results = [some (.plain (.next (.ok 1))), some (.plain (.write 2 none))] :=
    exists_play [.call (.plain .next), .call (.plain (.write [1, 2] 0)), .run 0 none,
      .park 0, .run 1 (some 0), .run 0 none] (by decide)
  exact ⟨⟨c₁, h₁, hblock _ c₁ h₁.left⟩, ⟨c₂, h₂, hring _ c₂ h₂.left⟩, c₃, h₃, hgrow c₃ h₃.left⟩

-- Calls that are not ordered are left waiting. A signal reaches a call of the wrong kind, elements
-- are dropped or written without a notice, or one notice is for two readers.
theorem wakeups_lost :
    (∃ c : System (Fixed Nat) (Op Nat) (Result Nat),
      Reachable .condition Block.body (fun _ _ => true) (Block.block [0]) c ∧
        c.stuck Fixed.free) ∧
    (∃ c : System (Fixed Nat) (Op Nat) (Result Nat),
      Reachable .channel Ring.body (fun _ _ => true) (Ring.ringN 1) c ∧
        c.stuck fun _ => Fixed.ready) ∧
    (∃ c : System (Growable Nat) (Growable.Call Nat) (Growable.Result Nat),
      Reachable .channel Growable.body (fun _ _ => true) {} c ∧
        c.stuck fun _ => Growable.ready) := by
  refine ⟨?_, ?_, ?_⟩
  · exact exists_play [.call .next, .call .next, .call (.add 7), .call (.add 8),
      .run 0 none, .run 1 none, .run 2 (some 0), .run 3 none, .run 0 (some 1), .run 1 none]
      (by decide)
  · exact exists_play [.call .next, .run 0 none, .park 0, .call (.write [7] 0),
      .run 1 none] (by decide)
  · exact exists_play [.call (.plain .next), .call (.plain .next), .run 0 none,
      .park 0, .run 1 none, .park 1, .call (.plain (.write [1, 2] 0)), .run 2 (some 0),
      .run 0 none] (by decide)

-- An element is dropped while a writer waits for room.
example : ∃ c : System (Fixed Nat) (Op Nat) (Result Nat),
    Reachable .condition Block.body (fun _ _ => true) (Block.block [0]) c ∧ c.stuck Fixed.free :=
  exists_play [.call (.add 7), .call (.add 8), .call (.discard 1), .run 0 none,
    .run 1 none, .run 2 none] (by decide)

end GizClaw.Buffer

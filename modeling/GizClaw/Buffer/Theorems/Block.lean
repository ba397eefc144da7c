import GizClaw.Buffer.Block
import GizClaw.Buffer.Theorems.Storage

-- `BlockBuffer` as a bounded queue that loses nothing, with any calls at the same time.

namespace GizClaw.Buffer.Block

open Monitor

variable {T : Type}

section Progress

-- The elements that the storage holds.
def held (s : Fixed T) : List T :=
  (s.storage.buf.rotate s.storage.head.toNat).take s.storage.len.toNat

theorem held_eq (h : s.storage.Holds size q) : held s = q := by
  have ⟨i, hh, _, free, hf⟩ := h.cells
  rw [held, h.len, hh, Int.toNat_natCast, Int.toNat_natCast, hf, List.take_left]

-- What a section of a call has put behind the held elements, and taken from their front.
def put (s s' : Fixed T) : Op T → List T
  | .write p _ => p.take (s'.storage.tail - s.storage.tail).toNat
  | .add t => [t].take (s'.storage.tail - s.storage.tail).toNat
  | _ => []

def taken (s s' : Fixed T) : Op T → List T
  | .reset => held s
  | _ => (held s).take (s'.storage.head - s.storage.head).toNat

-- A call that was made as `op` has put the elements of `acc` and taken those of `rem`, and goes on
-- with `rest`.
def Progress (op rest : Op T) (acc rem : List T) : Prop :=
  rem = [] ∧
  match op with
  | .write p wn => ∃ k ≤ p.length, rest = .write (p.drop k) (wn + k) ∧ acc = p.take k
  | _ => rest = op ∧ acc = []

-- What a call has put and taken when it returns.
def Finished (acc rem : List T) : Op T → Result T → Prop
  | .write p wn, .write n err =>
    rem = [] ∧ ∃ k ≤ p.length, n = wn + k ∧ acc = p.take k ∧ (err = none → k = p.length)
  | .add t, .err err => rem = [] ∧ acc = if err = none then [t] else []
  | .read k, .read (.ok p) => acc = [] ∧ rem = p ∧ p.length ≤ k
  | .read _, .read (.error _) => acc = [] ∧ rem = []
  | .next, .next (.ok t) => acc = [] ∧ rem = [t]
  | .next, .next (.error _) => acc = [] ∧ rem = []
  | .discard n, .err err =>
    acc = [] ∧ rem.length ≤ n.toNat ∧ (err ≠ none → rem = [])
  | .reset, .reset => acc = []
  | .len, .len _ => acc = [] ∧ rem = []
  | .bytes, .bytes _ => acc = [] ∧ rem = []
  | .closeWrite, .err _ => acc = [] ∧ rem = []
  | .closeWithError _, .err _ => acc = [] ∧ rem = []
  | _, _ => False

def Advanced (op : Op T) (acc rem : List T) : Op T ⊕ Result T → Prop
  | .inl rest => Progress op rest acc rem
  | .inr r => Finished acc rem op r

theorem progress_refl (op : Op T) : Progress op op [] [] := by
  refine ⟨rfl, ?_⟩
  cases op
  case write => exact ⟨0, Nat.zero_le _, by simp, by simp⟩
  all_goals exact ⟨rfl, rfl⟩

theorem advanced_refl (op : Op T) :
    Advanced op [] [] (Outcome.wait op : Outcome (Op T) (Result T)).progress :=
  progress_refl op

theorem Progress.advanced (h : Progress op rest acc rem) (h' : Advanced rest acc' rem' next) :
    Advanced op (acc ++ acc') (rem ++ rem') next := by
  obtain ⟨rfl, h⟩ := h
  cases op
  case write =>
    obtain ⟨k, hk, rfl, rfl⟩ := h
    cases next
    case inl =>
      obtain ⟨rfl, k', hk', rfl, rfl⟩ := h'
      rw [List.length_drop] at hk'
      exact ⟨rfl, k + k', by omega, by rw [List.drop_drop, Nat.add_assoc], by rw [List.take_add]⟩
    case inr r =>
      cases r
      case write =>
        obtain ⟨rfl, k', hk', rfl, rfl, he⟩ := h'
        rw [List.length_drop] at hk' he
        refine ⟨rfl, k + k', by omega, by omega, by rw [List.take_add], fun h => ?_⟩
        have := he h
        omega
      all_goals exact h'.elim
  all_goals
    obtain ⟨rfl, rfl⟩ := h
    exact h'

end Progress

section Sections

variable {s s' : Fixed T} {size : Nat} {q : List T} {op : Op T}

theorem put_same (h : s'.storage = s.storage) (op : Op T) : put s s' op = [] := by
  cases op <;> simp [put, h]

theorem taken_same (h : s'.storage = s.storage) (hop : op ≠ .reset) : taken s s' op = [] := by
  cases op <;> simp_all [taken]

-- What a section has to do with the held elements: what it takes and what it puts, together with
-- what is held then, is what was held, and the call goes on or returns accordingly.
def Spec (size : Nat) (q : List T) (s s' : Fixed T) (op : Op T) (next : Op T ⊕ Result T) : Prop :=
  ∃ q', s'.storage.Holds size q' ∧ q ++ put s s' op = taken s s' op ++ q' ∧
    Advanced op (put s s' op) (taken s s' op) next

theorem spec_same (hs : s.storage.Holds size q) (he : s'.storage = s.storage) (hop : op ≠ .reset)
    (ha : Advanced op [] [] next) : Spec size q s s' op next := by
  rw [Spec, put_same he, taken_same he hop]
  exact ⟨q, he ▸ hs, by simp, ha⟩

-- A section that takes the elements in front of `q'`.
theorem spec_take (hop : op ≠ .reset) (ha : Advanced op [] p next) (hs : s.storage.Holds size q)
    (hh : s'.storage.head = s.storage.head + p.length) (ht : s'.storage.tail = s.storage.tail)
    (hs' : s'.storage.Holds size q') (hq : q = p ++ q') : Spec size q s s' op next := by
  have htaken : taken s s' op = p := by
    cases op <;> simp_all [taken, held_eq hs]
  have hput : put s s' op = [] := by
    cases op <;> simp [put, ht]
  rw [Spec, htaken, hput]
  exact ⟨q', hs', by simp [hq], ha⟩

-- A section that puts the elements behind `q`.
theorem spec_put (hop : op ≠ .reset) (ha : Advanced op p [] next)
    (hh : s'.storage.head = s.storage.head) (hs' : s'.storage.Holds size (q ++ p))
    (hp : put s s' op = p) : Spec size q s s' op next := by
  have htaken : taken s s' op = [] := by
    cases op <;> simp_all [taken]
  rw [Spec, htaken, hp]
  exact ⟨q ++ p, hs', rfl, ha⟩

variable [Inhabited T] {notice : Notice} {outcome : Outcome (Op T) (Result T)}

theorem step_spec (hs : s.storage.Holds size q) (hd : ∀ n, op = .discard n → 0 ≤ n)
    (h : step s op = (s', notice, outcome)) : Spec size q s s' op outcome.progress := by
  cases op
  case discard n =>
    simp only [step] at h
    split at h
    case h_1 => cases h; exact spec_same hs rfl (by simp) ⟨rfl, Nat.zero_le _, fun _ => rfl⟩
    case h_2 =>
      cases h
      have hs' := hs.discard (hd n rfl)
      have ha : Finished [] (q.take n.toNat) (.discard n) (.err none) :=
        ⟨rfl, List.length_take_le .., fun h => absurd rfl h⟩
      exact spec_take (by simp) ha hs (hs.head_discard (hd n rfl)) (Storage.tail_discard ..) hs'
        (List.take_append_drop ..).symm
  case read k =>
    simp only [step] at h
    split at h
    case h_1 => cases h; exact spec_same hs rfl (by simp) ⟨rfl, rfl⟩
    case h_2 =>
      split at h
      case isTrue =>
        split at h
        case isTrue => cases h; exact spec_same hs rfl (by simp) ⟨rfl, rfl⟩
        case isFalse => cases h; exact spec_same hs rfl (by simp) (advanced_refl _)
      case isFalse =>
        cases h
        have ⟨hp, hs'⟩ := hs.read k
        have ha : Finished [] (q.take k) (.read k) (.read (.ok (s.storage.read k).fst)) :=
          ⟨rfl, hp.symm, by rw [hp]; exact List.length_take_le ..⟩
        exact spec_take (by simp) ha hs (by rw [← hp]; rfl) rfl hs' (List.take_append_drop k q).symm
  case next =>
    simp only [step] at h
    split at h
    case h_1 => cases h; exact spec_same hs rfl (by simp) ⟨rfl, rfl⟩
    case h_2 =>
      split at h
      case isTrue =>
        split at h
        case isTrue => cases h; exact spec_same hs rfl (by simp) ⟨rfl, rfl⟩
        case isFalse => cases h; exact spec_same hs rfl (by simp) (advanced_refl _)
      case isFalse he =>
        cases h
        cases q
        case nil => exact absurd (Fixed.isEmpty_iff hs |>.mpr rfl) he
        case cons t q =>
          have ⟨ht, hs'⟩ := hs.next
          have ha : Finished [] [t] .next (.next (.ok s.storage.next.fst)) := ⟨rfl, by rw [ht]⟩
          exact spec_take (by simp) ha hs rfl rfl hs' rfl
  case write p wn =>
    simp only [step] at h
    split at h
    case h_1 =>
      cases h
      exact spec_same hs rfl (by simp) ⟨rfl, 0, Nat.zero_le _, rfl, by simp, by simp⟩
    case h_2 =>
      split at h
      case isTrue hp =>
        cases h
        exact spec_same hs rfl (by simp) ⟨rfl, 0, Nat.zero_le _, rfl, by simp, by simp [hp]⟩
      case isFalse =>
        split at h
        case isTrue => cases h; exact spec_same hs rfl (by simp) (advanced_refl _)
        case isFalse =>
          cases h
          have ⟨hs', hn⟩ := hs.append p
          have htail : (s.storage.append p).fst.tail = s.storage.tail + (s.storage.append p).snd :=
            rfl
          have hp : put s { s with storage := (s.storage.append p).fst } (.write p wn) =
              p.take (s.storage.append p).snd := by
            have hk : (s.storage.tail + ((s.storage.append p).snd : Int) - s.storage.tail).toNat =
              (s.storage.append p).snd := by omega
            rw [put, htail, hk]
          have hle : (s.storage.append p).snd ≤ p.length := by omega
          have htake : p.take (s.storage.append p).snd = p.take (size - q.length) := by
            rw [hn, ← List.take_eq_take_min]
          refine spec_put (by simp) ?_ rfl (htake ▸ hs') hp
          by_cases hr : p.drop (s.storage.append p).snd = []
          case pos =>
            rw [if_pos hr]
            refine ⟨rfl, _, hle, rfl, rfl, fun _ => ?_⟩
            exact le_antisymm hle (List.drop_eq_nil_iff.mp hr)
          case neg =>
            rw [if_neg hr]
            exact ⟨rfl, _, hle, rfl, rfl⟩
  case add t =>
    simp only [step] at h
    split at h
    case h_1 => cases h; exact spec_same hs rfl (by simp) ⟨rfl, rfl⟩
    case h_2 =>
      split at h
      case isTrue => cases h; exact spec_same hs rfl (by simp) (advanced_refl _)
      case isFalse hf =>
        cases h
        have hlt : q.length < size :=
          hs.length_le.lt_of_ne fun he => hf (Fixed.isFull_iff hs |>.mpr he)
        have ha : Finished [t] [] (.add t) (.err none) := ⟨rfl, rfl⟩
        exact spec_put (by simp) ha rfl (hs.add hlt t) (by simp [put, Storage.add])
  case reset =>
    cases h
    have he : taken s { s with storage := s.storage.reset } .reset = q := held_eq hs
    rw [Outcome.progress, Spec, he]
    exact ⟨[], hs.reset, by simp [put], rfl⟩
  case len | bytes => cases h; exact spec_same hs rfl (by simp) ⟨rfl, rfl⟩
  case closeWrite =>
    simp only [step] at h
    split at h
    case isTrue | isFalse => cases h; exact spec_same hs rfl (by simp) ⟨rfl, rfl⟩
  case closeWithError =>
    simp only [step] at h
    split at h
    case h_1 | h_2 => cases h; exact spec_same hs rfl (by simp) ⟨rfl, rfl⟩

end Sections

section Runs

-- The elements that were put and taken so far, in order, with the numbers of the calls.
structure Log (T : Type) where
  accepted : List (Nat × T) := []
  removed : List (Nat × T) := []

def Log.acceptedBy (log : Log T) (i : Nat) : List T :=
  (log.accepted.filter (·.fst = i)).map Prod.snd

def Log.removedBy (log : Log T) (i : Nat) : List T :=
  (log.removed.filter (·.fst = i)).map Prod.snd

def Log.record (log : Log T) (i : Nat) (acc rem : List T) : Log T where
  accepted := log.accepted ++ acc.map (i, ·)
  removed := log.removed ++ rem.map (i, ·)

variable [Inhabited T]

-- The buffer together with the log of what its sections put and take.
def logged : Body (Fixed T × Log T) (Op T) (Result T) := fun i op (s, log) =>
  let (s', notice, outcome) := step s op
  ((s', log.record i (put s s' op) (taken s s' op)), notice, outcome)

-- Nothing is taken back.
def forward (_ : System (Fixed T × Log T) (Op T) (Result T)) : Op T → Bool
  | .discard n => 0 ≤ n
  | _ => true

abbrev Reachable (buf : List T) :=
  Monitor.Reachable .condition logged forward (block buf, ({} : Log T))

omit [Inhabited T] in
theorem map_filter_record (l : List (Nat × T)) (i j : Nat) (p : List T) :
    ((l ++ p.map (i, ·)).filter (·.fst = j)).map Prod.snd =
      (l.filter (·.fst = j)).map Prod.snd ++ if i = j then p else [] := by
  rw [List.filter_append, List.map_append, List.filter_map, List.map_map]
  congr 1
  by_cases h : i = j <;> simp [h, Function.comp_def]

omit [Inhabited T] in
theorem Log.acceptedBy_record (log : Log T) (i j : Nat) (acc rem : List T) :
    (log.record i acc rem).acceptedBy j = log.acceptedBy j ++ if i = j then acc else [] :=
  map_filter_record ..

omit [Inhabited T] in
theorem Log.removedBy_record (log : Log T) (i j : Nat) (acc rem : List T) :
    (log.record i acc rem).removedBy j = log.removedBy j ++ if i = j then rem else [] :=
  map_filter_record ..

structure Inv (size : Nat) (s : Fixed T × Log T) (calls : List (Op T × (Op T ⊕ Result T))) :
    Prop where
  holds : ∃ q, s.fst.storage.Holds size q ∧
    s.snd.removed.map Prod.snd ++ q = s.snd.accepted.map Prod.snd
  advanced : ∀ i op next, calls[i]? = some (op, next) →
    Advanced op (s.snd.acceptedBy i) (s.snd.removedBy i) next
  fresh : ∀ i, calls.length ≤ i → s.snd.acceptedBy i = [] ∧ s.snd.removedBy i = []

theorem inv_of_reachable (hb : buf ≠ []) {c : System (Fixed T × Log T) (Op T) (Result T)}
    (h : Reachable buf c) : Inv buf.length c.shared c.progress := by
  refine Monitor.Reachable.progress ?init ?call ?run h
  case init => exact ⟨⟨[], .init hb, rfl⟩, by simp, fun _ _ => ⟨rfl, rfl⟩⟩
  case call =>
    intro s calls op hi
    refine ⟨hi.holds, fun i op' next h => ?_, fun i hl => hi.fresh i ?_⟩
    · rcases Nat.lt_or_ge i calls.length with hlt | hge
      case inl => exact hi.advanced i op' next (by rwa [List.getElem?_append_left hlt] at h)
      case inr =>
        have ⟨ha, hr⟩ := hi.fresh i hge
        rw [List.getElem?_append_right hge] at h
        have h := List.mem_singleton.mp (List.mem_of_getElem? h)
        cases h
        rw [ha, hr]
        exact progress_refl op
    · rw [List.length_append] at hl
      omega
  case run =>
    intro c i op rest shared notice outcome hi hp hg hb
    have ⟨q, hq, hlog⟩ := hi.holds
    obtain ⟨s', n, o, hstep⟩ : ∃ s' n o, step c.shared.fst rest = (s', n, o) := ⟨_, _, _, rfl⟩
    simp only [logged, hstep, Prod.mk.injEq] at hb
    obtain ⟨rfl, rfl, rfl⟩ := hb
    have hd : ∀ n, rest = .discard n → 0 ≤ n := by
      rintro n rfl
      simpa [forward] using hg
    have ⟨q', hq', hsum, ha⟩ := step_spec hq hd hstep
    have ⟨hlt, _⟩ := List.getElem?_eq_some_iff.mp hp
    refine ⟨⟨q', hq', ?_⟩, fun j op' next h => ?_, fun j hl => ?_⟩
    · simp only [Log.record, List.map_append, List.map_map, Function.comp_def, List.map_id']
      rw [← hlog, List.append_assoc, List.append_assoc, hsum]
    · simp only [Log.acceptedBy_record, Log.removedBy_record]
      by_cases hij : i = j
      case pos =>
        subst hij
        rw [List.getElem?_set_self hlt] at h
        cases h
        have hprog : Progress op rest _ _ := hi.advanced i op (.inl rest) hp
        simpa using hprog.advanced ha
      case neg =>
        rw [List.getElem?_set_ne hij] at h
        simpa [hij] using hi.advanced j op' next h
    · rw [List.length_set] at hl
      have hij : i ≠ j := by omega
      simpa [Log.acceptedBy_record, Log.removedBy_record, hij] using hi.fresh j hl

-- Nothing is lost and nothing is made up: what was removed and what is held is what was accepted.
-- Calls return what they have put and taken. The elements are shown unless there is none.
theorem lossless {buf : List T} (hb : buf ≠ []) {c : System (Fixed T × Log T) (Op T) (Result T)}
    (h : Reachable buf c) :
    let s := c.shared.fst
    let log := c.shared.snd
    (held s).length ≤ buf.length ∧
    log.removed.map Prod.snd ++ held s = log.accepted.map Prod.snd ∧
    (∀ i op r, c.calls[i]? = some ⟨op, .done r⟩ →
      Finished (log.acceptedBy i) (log.removedBy i) op r) ∧
    (step s .bytes = (s, .silent, .done (.bytes (held s))) ↔ held s ≠ []) := by
  have hi := inv_of_reachable hb h
  have ⟨q, hq, hlog⟩ := hi.holds
  dsimp only
  rw [held_eq hq]
  refine ⟨hq.length_le, hlog, fun i op r hc => ?_, ?_⟩
  · refine hi.advanced i op (.inr r) ?_
    rw [System.progress, List.getElem?_map, hc]
    rfl
  · simp only [step, Prod.mk.injEq, Outcome.done.injEq, Result.bytes.injEq, true_and]
    exact hq.bytes_eq_iff

namespace Sample

-- The write waits for the read and goes on after it.
def moves : List (Move (Op Nat)) :=
  [.call (.write [1, 2, 3] 0), .run 0 none, .call (.read 1), .run 1 (some 0), .run 0 none]

end Sample

theorem lossless_sample :
    ∃ c, Reachable [0, 0] c ∧
      c.calls[0]? = some ⟨.write [1, 2, 3] 0, .done (.write 3 none)⟩ ∧
      c.shared.snd.acceptedBy 0 = [1, 2, 3] ∧ held c.shared.fst = [2, 3] ∧
      c.shared.snd.removed.map Prod.snd ++ held c.shared.fst =
        c.shared.snd.accepted.map Prod.snd ∧
      step c.shared.fst .bytes =
        (c.shared.fst, .silent, .done (.bytes (held c.shared.fst))) := by
  have ⟨c, hc, he⟩ : ∃ c, Reachable [0, 0] c ∧ (c.calls[0]?, held c.shared.fst) =
      (some ⟨.write [1, 2, 3] 0, .done (.write 3 none)⟩, [2, 3]) :=
    Reachable.exists_play Sample.moves (by decide)
  simp only [Prod.mk.injEq] at he
  have ⟨_, hlog, hcalls, hbytes⟩ := lossless (by simp) hc
  have ⟨_, k, _, hk, ha, _⟩ := hcalls 0 _ _ he.left
  exact ⟨c, hc, he.left, by simp [ha, hk], he.right, hlog, hbytes.mpr (by simp [he.right])⟩

-- The element that was taken is shown although nothing is held. A negative count gives it back.
theorem empty_buffer_shows_element :
    (∃ c, Reachable [0] c ∧ c.calls[2]? = some ⟨.bytes, .done (.bytes [7])⟩ ∧
      held c.shared.fst = []) ∧
    ∃ c, Monitor.Reachable .condition logged (fun _ _ => true) (block [0], {}) c ∧
      c.shared.snd.removed.map Prod.snd ++ held c.shared.fst = [7, 7] ∧
      c.shared.snd.accepted.map Prod.snd = [7] := by
  constructor
  · have ⟨c, hc, he⟩ : ∃ c, Reachable [0] c ∧ (c.calls[2]?, held c.shared.fst) =
        (some ⟨.bytes, .done (.bytes [7])⟩, []) :=
      Reachable.exists_play [.call (.write [7] 0), .run 0 none, .call .next, .run 1 none,
        .call .bytes, .run 2 none] (by decide)
    simp only [Prod.mk.injEq] at he
    exact ⟨c, hc, he⟩
  · have ⟨c, hc, he⟩ : ∃ c, Monitor.Reachable .condition logged (fun _ _ => true)
        (block [0], {}) c ∧ (c.shared.snd.removed.map Prod.snd ++ held c.shared.fst,
          c.shared.snd.accepted.map Prod.snd) = ([7, 7], [7]) :=
      Reachable.exists_play [.call (.write [7] 0), .run 0 none, .call .next, .run 1 none,
        .call (.discard (-1)), .run 2 none] (by decide)
    simp only [Prod.mk.injEq] at he
    exact ⟨c, hc, he⟩

end Runs

end GizClaw.Buffer.Block

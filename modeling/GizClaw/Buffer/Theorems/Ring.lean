import GizClaw.Buffer.Theorems.Storage

-- `RingBuffer` against the queue that keeps its most recent elements.

namespace GizClaw.Buffer

open Monitor

variable {T : Type}

namespace KeepLast

-- A call on an open queue with room for `size` elements, unless it has to wait.
def step (size : Nat) (q : List T) : Op T → Option (List T × Result T)
  | .write p _ => some ((q ++ p).rtake size, .write p.length none)
  | .add t => some ((q ++ [t]).rtake size, .err none)
  | .read k => if q = [] then none else some (q.drop k, .read (.ok (q.take k)))
  | .next =>
    match q with
    | [] => none
    | t :: q => some (q, .next (.ok t))
  | .discard n => some (q.drop n.toNat, .err none)
  | .reset => some ([], .reset)
  | .len => some (q, .len q.length)
  | .bytes => some (q, .bytes q)
  | .closeWrite | .closeWithError _ => none

def run (size : Nat) : List T → List (Op T) → Option (List (Result T))
  | _, [] => some []
  | q, op :: ops =>
    match step size q op with
    | some (q, r) => (run size q ops).map (r :: ·)
    | none => none

-- The calls find the elements of `q`, and none of them asks for all elements when there is none.
def BytesHeld (size : Nat) : List T → List (Op T) → Prop
  | _, [] => True
  | q, op :: ops =>
    (op = .bytes → q ≠ []) ∧ ∀ q' r, step size q op = some (q', r) → BytesHeld size q' ops

end KeepLast

-- Calls that leave the buffer open and take nothing back.
def Op.OnOpen : Op T → Prop
  | .discard n => 0 ≤ n
  | .closeWrite | .closeWithError _ => False
  | _ => True

def Fixed.IsOpen (s : Fixed T) : Prop :=
  s.closeWrite = false ∧ s.closeErr = none

theorem Fixed.IsOpen.writeFault {s : Fixed T} (h : s.IsOpen) : s.writeFault = none := by
  simp [Fixed.writeFault, h.left, h.right]

namespace Ring

variable [Inhabited T]

-- One call after the other, as long as none of them waits.
def run : Fixed T → List (Op T) → Option (List (Result T))
  | _, [] => some []
  | s, op :: ops =>
    match step s op with
    | (s, _, .done r) => (run s ops).map (r :: ·)
    | _ => none

theorem step_keepLast {r : Result T} (ho : s.IsOpen) (hs : s.storage.Holds size q) (hf : op.OnOpen)
    (h : KeepLast.step size q op = some (q', r)) :
    ∃ storage notice r', step s op = ({ s with storage }, notice, .done r') ∧
      storage.Holds size q' ∧ (r' = r ↔ (op = .bytes → q ≠ [])) := by
  have he := ho.right
  cases op
  case write p wn =>
    cases h
    have ⟨hp, hn⟩ := hs.overwrite p
    exact ⟨_, .silent, .write p.length none, by simp only [step, ho.writeFault, hn], hp, by simp⟩
  case add t =>
    cases h
    exact ⟨_, .one, .err none, by simp only [step, ho.writeFault], hs.addLast t, by simp⟩
  case read k =>
    simp only [KeepLast.step, Option.ite_none_left_eq_some] at h
    have ⟨hne, h⟩ := h
    cases h
    have ⟨hp, hd⟩ := hs.read k
    have hi : ¬s.isEmpty := fun hi => hne (Fixed.isEmpty_iff hs |>.mp hi)
    refine ⟨_, .silent, .read (.ok (q.take k)), ?_, hd, by simp⟩
    simp only [step, he, hi, Bool.false_eq_true, if_false, hp]
  case next =>
    cases q
    case nil => contradiction
    case cons t q =>
      cases h
      have ⟨ht, hd⟩ := hs.next
      have hi : ¬s.isEmpty := fun hi => nomatch Fixed.isEmpty_iff hs |>.mp hi
      refine ⟨_, .silent, .next (.ok t), ?_, hd, by simp⟩
      simp only [step, he, hi, Bool.false_eq_true, if_false, ht]
  case discard =>
    cases h
    exact ⟨_, .silent, .err none, by simp only [step, he], hs.discard hf, by simp⟩
  case reset => cases h; exact ⟨_, _, _, rfl, hs.reset, by simp⟩
  case len => cases h; exact ⟨s.storage, _, _, rfl, hs, by simp [hs.len]⟩
  case bytes => cases h; exact ⟨s.storage, _, _, rfl, hs, by simp [hs.bytes_eq_iff]⟩
  case closeWrite | closeWithError => contradiction

-- The calls that wait are the same.
theorem step_wait {op : Op T} (ho : s.IsOpen) (hs : s.storage.Holds size q) (hf : op.OnOpen)
    (h : KeepLast.step size q op = none) : step s op = (s, .silent, .wait op) := by
  have hi : q = [] → s.isEmpty := (Fixed.isEmpty_iff hs).mpr
  cases op
  case read =>
    have hq : q = [] := by simpa [KeepLast.step] using h
    simp [step, ho.left, ho.right, hi hq]
  case next =>
    cases q
    case nil => simp [step, ho.left, ho.right, hi rfl]
    case cons => contradiction
  case closeWrite | closeWithError => exact hf.elim
  all_goals contradiction

theorem run_keepLast {ops : List (Op T)} (ho : s.IsOpen) (hs : s.storage.Holds size q)
    (hf : ∀ op ∈ ops, op.OnOpen) :
    ((run s ops).isSome ↔ (KeepLast.run size q ops).isSome) ∧
      ((run s ops).isSome → (run s ops = KeepLast.run size q ops ↔
        KeepLast.BytesHeld size q ops)) := by
  induction ops generalizing s q
  case nil => simp [run, KeepLast.run, KeepLast.BytesHeld]
  case cons op ops hi =>
    have hop := hf op List.mem_cons_self
    cases hq : KeepLast.step size q op
    case none =>
      have hw := step_wait ho hs hop hq
      simp [run, KeepLast.run, hw, hq]
    case some qr =>
      obtain ⟨q', r⟩ := qr
      have ⟨storage, notice, r', hstep, hs', hr⟩ := step_keepLast ho hs hop hq
      have hi := hi (s := { s with storage }) ho hs'
        fun op h => hf op (List.mem_cons_of_mem _ h)
      have hrun : run s (op :: ops) = (run { s with storage } ops).map (r' :: ·) := by
        rw [run, hstep]
      have hspec : KeepLast.run size q (op :: ops) = (KeepLast.run size q' ops).map (r :: ·) := by
        rw [KeepLast.run, hq]
      have hheld : KeepLast.BytesHeld size q (op :: ops) ↔
          r' = r ∧ KeepLast.BytesHeld size q' ops := by
        rw [KeepLast.BytesHeld, hr, hq]
        exact and_congr_right fun _ =>
          ⟨fun h => h q' r rfl, fun h _ _ he => by cases he; exact h⟩
      rw [hrun, hspec, hheld, Option.isSome_map, Option.isSome_map]
      refine ⟨hi.left, fun hsome => ?_⟩
      have ⟨rs, hrs⟩ := Option.isSome_iff_exists.mp hsome
      have ⟨rs', hrs'⟩ := Option.isSome_iff_exists.mp (hi.left.mp hsome)
      have hi := hi.right hsome
      rw [hrs, hrs', Option.some.injEq] at hi
      rw [hrs, hrs', Option.map_some, Option.map_some, Option.some.injEq, List.cons.injEq, hi]

theorem holds_ringN (hs : 0 < size) : (ringN size : Fixed T).storage.Holds size [] := by
  have hne : List.replicate size (default : T) ≠ [] := by simp; omega
  have h := Storage.Holds.init hne
  rwa [List.length_replicate] at h

-- The results are those of the queue as long as no call asks an empty buffer for its elements.
theorem run_eq_keepLast_iff {size : Nat} (hs : 0 < size) {ops : List (Op T)}
    (hf : ∀ op ∈ ops, op.OnOpen) :
    ((run (ringN size) ops).isSome ↔ (KeepLast.run size [] ops).isSome) ∧
      ((run (ringN size) ops).isSome → (run (ringN size) ops = KeepLast.run size [] ops ↔
        KeepLast.BytesHeld size [] ops)) :=
  run_keepLast ⟨rfl, rfl⟩ (holds_ringN hs) hf

-- Seven elements go through a buffer for three, the last six of them in one call.
theorem run_eq_keepLast_sample :
    run (ringN 3 : Fixed Nat) [.add 1, .write [2, 3, 4, 5, 6, 7] 0, .bytes, .read 2, .len] =
      some [.err none, .write 6 none, .bytes [5, 6, 7], .read (.ok [5, 6]), .len 1] := by
  have hf : ∀ op ∈ ([.add 1, .write [2, 3, 4, 5, 6, 7] 0, .bytes, .read 2, .len] : List (Op Nat)),
      op.OnOpen := by
    simp [Op.OnOpen]
  have hsome : (run (ringN 3) ([.add 1, .write [2, 3, 4, 5, 6, 7] 0, .bytes, .read 2,
      .len] : List (Op Nat))).isSome := by decide
  refine (((run_eq_keepLast_iff (by decide) hf).right hsome).mpr ?_).trans ?_
  · simp [KeepLast.BytesHeld, KeepLast.step, List.rtake]
  · decide

-- After the only element is taken, it is still shown.
theorem bytes_of_empty :
    run (ringN 1 : Fixed Nat) [.write [7] 0, .next, .bytes] =
        some [.write 1 none, .next (.ok 7), .bytes [7]] ∧
      KeepLast.run 1 [] [.write [7] 0, .next, .bytes] =
        some [.write 1 none, .next (.ok 7), .bytes []] := by
  decide

end Ring

end GizClaw.Buffer

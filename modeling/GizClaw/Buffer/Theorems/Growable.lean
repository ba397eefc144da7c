import GizClaw.Buffer.Elements

-- `Buffer` does what the list of elements does: ids never come back, so that they tell the elements
-- apart.

namespace GizClaw.Buffer

open Monitor
open List (length_map nil_sublist map_cons drop_sublist map_drop)

namespace Elements

variable {T : Type} {a : Elements T}

-- New elements have new numbers.
def Follows (a a' : Elements T) : Prop :=
  a.count ≤ a'.count ∧ ∀ e ∈ a'.elems, e ∈ a.elems ∨ a.count < e.fst

theorem map_fst_append (p : List T) :
    (a.append p).elems.map Prod.fst =
      a.elems.map Prod.fst ++ (List.range p.length).map (a.count + 1 + ·) := by
  simp [append, List.map_fst_zip]

theorem mem_append (h : e ∈ (a.append p).elems) :
    e ∈ a.elems ∨ a.count < e.fst ∧ e.fst ≤ (a.append p).count := by
  refine (List.mem_append.mp h).imp id fun h => ?_
  have ⟨i, hi, he⟩ := List.mem_map.mp (List.of_mem_zip h).left
  have := List.mem_range.mp hi
  exact ⟨by omega, by simp only [append]; omega⟩

theorem follows_sub (hc : a.count = a'.count) (hs : a'.elems.Sublist a.elems) : a.Follows a' :=
  ⟨hc.le, fun _ he => .inl (hs.subset he)⟩

theorem follows_append (p : List T) : a.Follows (a.append p) :=
  ⟨Nat.le_add_right .., fun _ he => (mem_append he).imp id And.left⟩

theorem follows_refl : a.Follows a :=
  follows_sub rfl (List.Sublist.refl _)

theorem plainStep_follows (op : Op T) : a.Follows (a.plainStep op).fst := by
  cases op <;> simp only [plainStep]
  case write p _ =>
    split
    · exact follows_refl
    · exact follows_append p
  case add t =>
    split
    · exact follows_refl
    · exact follows_append [t]
  case discard =>
    split
    · exact follows_refl
    · split
      · exact follows_refl
      · exact follows_sub rfl (drop_sublist ..)
  case read =>
    split
    · exact follows_refl
    · split
      · split <;> exact follows_refl
      · exact follows_sub rfl (drop_sublist ..)
  case next =>
    split
    · exact follows_refl
    · split
      · split <;> exact follows_refl
      · exact follows_sub rfl (by simp_all)
  case reset => exact follows_sub rfl (nil_sublist _)
  case len | bytes => exact follows_refl
  case closeWrite =>
    split
    · exact follows_refl
    · exact follows_sub rfl (List.Sublist.refl _)
  case closeWithError =>
    split
    · exact follows_refl
    · exact follows_sub rfl (nil_sublist _)

theorem step_follows (k : Call T) : a.Follows (a.step k).fst := by
  cases k
  case plain op => exact plainStep_follows op
  case removing => exact follows_sub rfl List.filter_sublist
  case removeIf p => cases p <;> exact follows_refl

end Elements

namespace Growable

variable {T : Type}

section Compaction

variable [Inhabited T]

-- An element is moved to the first of the cells in front of it.
theorem set_length_append {α : Type} (x y z : List α) (v : α) (hn : x.length = n) :
    (x ++ y ++ v :: z).set n v = x ++ [v] ++ (y ++ [v]).tail ++ z := by
  subst hn
  cases y <;> simp

-- While the loop runs, the elements that stayed are at the front, those that it has not reached are
-- where they were, and nothing is known about the cells between them.
theorem compactLoop_eq (removeIDs : List Nat) (todo kept : List (Nat × T)) (b : List T)
    (d : List Nat) (h : b.length = d.length) (removed : Nat) :
    let stay := todo.filter (·.fst ∉ removeIDs)
    ∃ b' d', compactLoop removeIDs (kept.map Prod.snd ++ b ++ todo.map Prod.snd)
        (kept.map Prod.fst ++ d ++ todo.map Prod.fst) kept.length removed
        (List.range' (kept.length + b.length) todo.length) =
      ((kept ++ stay).map Prod.snd ++ b', (kept ++ stay).map Prod.fst ++ d', (kept ++ stay).length,
        removed + todo.countP (·.fst ∈ removeIDs)) := by
  induction todo generalizing kept b d removed
  case nil => exact ⟨b, d, by simp [compactLoop]⟩
  case cons e todo hi =>
    have hid : (kept.map Prod.fst ++ d ++ (e :: todo).map Prod.fst).getD
        (kept.length + b.length) 0 = e.fst := by
      simp [List.getD_eq_getElem?_getD, h]
    have hval : (kept.map Prod.snd ++ b ++ (e :: todo).map Prod.snd).getD
        (kept.length + b.length) default = e.snd := by
      simp [List.getD_eq_getElem?_getD]
    rw [List.length_cons, List.range'_succ, compactLoop, hid, hval]
    by_cases he : e.fst ∈ removeIDs
    case pos =>
      have ⟨b', d', hi⟩ := hi kept (b ++ [e.snd]) (d ++ [e.fst]) (by simp [h]) (removed + 1)
      refine ⟨b', d', ?_⟩
      simp only [List.append_assoc, List.singleton_append, List.length_append,
        List.length_singleton, ← Nat.add_assoc] at hi
      simp only [map_cons, List.append_assoc, hi]
      simp [he, Nat.add_assoc, Nat.add_comm 1]
    case neg =>
      have ⟨b', d', hi⟩ := hi (kept ++ [e]) (b ++ [e.snd]).tail (d ++ [e.fst]).tail
        (by simp [h]) removed
      refine ⟨b', d', ?_⟩
      have hlen : (kept ++ [e]).length + (b ++ [e.snd]).tail.length =
          kept.length + b.length + 1 := by
        simp
        omega
      rw [hlen, List.length_append, List.map_append, List.map_append] at hi
      rw [if_neg he, map_cons, map_cons, set_length_append _ _ _ _ (length_map ..),
        set_length_append _ _ _ _ (length_map ..)]
      refine hi.trans ?_
      simp [he]

theorem compact_eq {s : Growable T} {l : List (Nat × T)} (hb : s.buf = l.map Prod.snd)
    (hd : s.ids = l.map Prod.fst) (removeIDs : List Nat) :
    let stay := l.filter (·.fst ∉ removeIDs)
    s.compact removeIDs = ({ s with buf := stay.map Prod.snd, ids := stay.map Prod.fst },
      l.countP (·.fst ∈ removeIDs)) := by
  have ⟨b', d', h⟩ := compactLoop_eq removeIDs l [] [] [] rfl 0
  simp only [List.map_nil, List.nil_append, List.length_nil, Nat.zero_add] at h
  rw [compact, hb, hd, length_map, List.range_eq_range', h]
  simp

end Compaction

section Refinement

structure Refines (s : Growable T) (a : Elements T) : Prop where
  buf : s.buf = a.elems.map Prod.snd
  ids : s.ids = a.elems.map Prod.fst
  nextID : s.nextID = a.count
  closeWrite : s.closeWrite = a.closeWrite
  closeErr : s.closeErr = a.closeErr
  increasing : (a.elems.map Prod.fst).Pairwise (· < ·)
  bounded : ∀ e ∈ a.elems, e.fst ≤ a.count

-- The ids of a removal stand for the elements that it has seen and that have the property. This is
-- so for what is held and for what may come.
inductive CallRefines (a : Elements T) : Call T → Elements.Call T → Prop
  | plain (op : Op T) : CallRefines a (.plain op) (.plain op)
  | removeIf (predicate : Option (T → Bool)) :
    CallRefines a (.removeIf predicate) (.removeIf predicate)
  | removing {removeIDs seen : List Nat} {predicate : T → Bool}
    (same : ∀ e, e ∈ a.elems ∨ a.count < e.fst →
      (e.fst ∈ removeIDs ↔ Elements.removes seen predicate e)) :
    CallRefines a (.removing removeIDs) (.removing seen predicate)

def abstractCall : Call T → Elements.Call T
  | .plain op => .plain op
  | .removeIf predicate => .removeIf predicate
  | .removing removeIDs => .removing removeIDs fun _ => true

variable {s : Growable T} {a a' : Elements T}

theorem callRefines_abstractCall (k : Call T) : CallRefines a k (abstractCall k) := by
  cases k
  case plain op => exact .plain op
  case removeIf p => exact .removeIf p
  case removing => exact .removing fun e _ => by simp [Elements.removes]

theorem CallRefines.follows (h : CallRefines a k k') (hf : a.Follows a') : CallRefines a' k k' := by
  cases h
  case plain op => exact .plain op
  case removeIf p => exact .removeIf p
  case removing same =>
    refine .removing fun e he => same e ?_
    cases he
    case inl he => exact hf.right e he
    case inr he => exact .inr (hf.left.trans_lt he)

section

variable (h : Refines s a)
include h

theorem Refines.sub (hs : elems.Sublist a.elems) :
    Refines { s with buf := elems.map Prod.snd, ids := elems.map Prod.fst } { a with elems } where
  buf := rfl
  ids := rfl
  nextID := h.nextID
  closeWrite := h.closeWrite
  closeErr := h.closeErr
  increasing := h.increasing.sublist (hs.map Prod.fst)
  bounded := fun e he => h.bounded e (hs.subset he)

theorem Refines.drop (n : Nat) : Refines (s.drop n) { a with elems := a.elems.drop n } := by
  have := h.sub (drop_sublist n a.elems)
  rwa [map_drop, map_drop, ← h.buf, ← h.ids] at this

theorem Refines.close (closeWrite : Bool) (closeErr : Option Error) :
    Refines { s with closeWrite, closeErr } { a with closeWrite, closeErr } :=
  ⟨h.buf, h.ids, h.nextID, rfl, rfl, h.increasing, h.bounded⟩

theorem Refines.append (p : List T) : Refines (s.append p) (a.append p) where
  buf := by simp [Growable.append, Elements.append, h.buf, List.map_snd_zip]
  ids := by simp [Growable.append, Elements.map_fst_append, h.ids, h.nextID]
  nextID := by simp [Growable.append, Elements.append, h.nextID]
  closeWrite := h.closeWrite
  closeErr := h.closeErr
  increasing := by
    rw [Elements.map_fst_append]
    refine List.pairwise_append.mpr ⟨h.increasing, ?_, ?_⟩
    case refine_1 => exact List.pairwise_lt_range.map _ fun x y hxy => by omega
    case refine_2 =>
      intro x hx y hy
      have ⟨e, he, hx⟩ := List.mem_map.mp hx
      have ⟨i, _, hy⟩ := List.mem_map.mp hy
      have := h.bounded e he
      omega
  bounded := by
    intro e he
    rcases Elements.mem_append he with he | ⟨_, he⟩
    case inl => exact (h.bounded e he).trans (Nat.le_add_right ..)
    case inr => exact he

-- A section and what it stands for: the same notice, the same form of outcome, and states that
-- are related again.
structure Matches (x : Growable T × Notice × Outcome (Call T) (Result T))
    (y : Elements T × Notice × Outcome (Elements.Call T) (Result T)) : Prop where
  state : Refines x.fst y.fst
  notice : x.snd.fst = y.snd.fst
  outcome : x.snd.snd.Rel (CallRefines y.fst) y.snd.snd

theorem Refines.done (notice : Notice) (r : Result T) :
    Matches (s, notice, .done r) (a, notice, .done r) :=
  ⟨h, rfl, .done r⟩

theorem Refines.wait (op : Op T) :
    Matches (s, .silent, .wait (.plain op)) (a, .silent, .wait (.plain op)) :=
  ⟨h, rfl, .wait (.plain op)⟩

theorem Refines.writeFault : s.writeFault = a.writeFault := by
  cases he : a.closeErr <;>
    simp [Growable.writeFault, Elements.writeFault, h.closeErr, h.closeWrite, he]

theorem Refines.plainStep (op : Op T) : Matches (s.plainStep op) (a.plainStep op) := by
  -- The flags are the same, so both sides take the same branches.
  obtain ⟨buf, ids, nextID, closeWrite, closeErr⟩ := s
  obtain ⟨elems, count, _, _⟩ := a
  obtain rfl : closeWrite = _ := h.closeWrite
  obtain rfl : closeErr = _ := h.closeErr
  obtain rfl : buf = _ := h.buf
  cases op
  case write p _ =>
    rw [Growable.plainStep, Elements.plainStep, h.writeFault]
    cases Elements.writeFault _
    case some => exact h.done ..
    case none => exact (h.append p).done ..
  case add t =>
    rw [Growable.plainStep, Elements.plainStep, h.writeFault]
    cases Elements.writeFault _
    case some => exact h.done ..
    case none => exact (h.append [t]).done ..
  case discard n =>
    cases closeErr
    case some => exact h.done ..
    case none =>
      simp only [Growable.plainStep, Elements.plainStep, length_map]
      by_cases hlt : (elems.length : Int) < n
      case pos =>
        -- More than there is: the abstract drop leaves nothing either.
        rw [if_pos hlt, if_neg (by omega), List.drop_of_length_le (by omega)]
        exact (h.sub (nil_sublist _)).done ..
      case neg =>
        rw [if_neg hlt]
        split
        · exact h.done ..
        · exact (h.drop _).done ..
  case read k =>
    cases closeErr
    case some => exact h.done ..
    case none =>
      simp only [Growable.plainStep, Elements.plainStep, List.map_eq_nil_iff]
      split
      case isTrue =>
        split
        · exact h.done ..
        · exact h.wait _
      case isFalse =>
        have hd := h.drop ((elems.map Prod.snd).take k).length
        rw [List.length_take, length_map, ← List.drop_eq_drop_min] at hd
        rw [List.map_take, List.length_take, length_map]
        exact hd.done ..
  case next =>
    cases closeErr
    case some => exact h.done ..
    case none =>
      cases elems
      case nil =>
        cases closeWrite
        · exact h.wait _
        · exact h.done ..
      case cons => exact (h.drop 1).done ..
  case reset => exact (h.sub (nil_sublist _)).done ..
  case len =>
    simp only [Growable.plainStep, Elements.plainStep, length_map]
    exact h.done ..
  case bytes => exact h.done ..
  case closeWrite =>
    cases closeWrite
    · exact (h.close true closeErr).done ..
    · exact h.done ..
  case closeWithError =>
    cases closeErr
    case some => exact h.done ..
    case none => exact ((h.sub (nil_sublist _)).close true _).done ..

end

theorem mem_select {l : List (Nat × T)} {id : Nat} :
    id ∈ select predicate (l.map Prod.snd) (l.map Prod.fst) ↔
      ∃ value, (id, value) ∈ l ∧ predicate value := by
  simp [select, List.zip_map', and_comm]

-- An id stands for one element, and ids of elements that may come are new.
theorem Refines.select (h : Refines s a) (predicate : T → Bool) :
    CallRefines a (.removing (Growable.select predicate s.buf s.ids))
      (.removing (a.elems.map Prod.fst) predicate) := by
  refine .removing fun e he => ?_
  rw [h.buf, h.ids, mem_select, Elements.removes, decide_eq_true_iff]
  cases he
  case inl he =>
    refine ⟨fun ⟨value, hv, hp⟩ => ?_, fun ⟨_, hp⟩ => ⟨e.snd, he, hp⟩⟩
    have hnd : (a.elems.map Prod.fst).Nodup := h.increasing.imp Nat.ne_of_lt
    have : (e.fst, value) = e := List.inj_on_of_nodup_map hnd hv he rfl
    exact ⟨List.mem_map_of_mem he, this ▸ hp⟩
  case inr he =>
    have hnot : ∀ value, (e.fst, value) ∉ a.elems :=
      fun value hv => absurd (h.bounded _ hv) (Nat.not_le.mpr he)
    simp [hnot]

variable [Inhabited T]

theorem Refines.step (h : Refines s a) {k : Call T} {k' : Elements.Call T}
    (hk : CallRefines a k k') : Matches (s.step k) (a.step k') := by
  cases hk
  case plain op => exact h.plainStep op
  case removeIf p =>
    cases p
    case none => exact h.done ..
    case some pred => exact ⟨h, rfl, .yield (h.select pred)⟩
  case removing removeIDs seen pred same =>
    have hstay : a.elems.filter (·.fst ∉ removeIDs) =
        a.elems.filter fun e => !Elements.removes seen pred e :=
      List.filter_congr fun e he => by simp [same e (.inl he)]
    have hgone : a.elems.countP (·.fst ∈ removeIDs) = a.elems.countP (Elements.removes seen pred) :=
      List.countP_congr fun e he => by simp [same e (.inl he)]
    simp only [Growable.step, compact_eq h.buf h.ids, Elements.step, hstay, hgone]
    exact (h.sub List.filter_sublist).done ..

theorem simulation :
    Simulation (body (T := T)) Elements.body abstractCall Refines fun _ a => CallRefines a where
  start op _ := callRefines_abstractCall op
  run h hk :=
    have hm := h.step hk
    ⟨hm.notice, hm.state, hm.outcome⟩
  keep _ _ h := h.follows (Elements.step_follows _)

end Refinement

section Runs

theorem refines_init : Refines ({} : Growable T) {} where
  buf := rfl
  ids := rfl
  nextID := rfl
  closeWrite := rfl
  closeErr := rfl
  increasing := .nil
  bounded := fun _ h => nomatch h

variable [Inhabited T] {c : System (Growable T) (Call T) (Result T)}

namespace Sample

-- A removal of even numbers. Between its sections one of the two it has seen is read and another
-- two is added, which stays.
def removal : List (Move (Call Nat)) :=
  [.call (.plain (.write [2, 3, 2] 0)), .call (.removeIf (some fun n => n % 2 = 0)),
    .call (.plain .next), .call (.plain (.add 2)), .run 0 none, .run 1 none, .run 2 none,
    .run 3 none, .run 1 none]

def shown (c : System (Growable Nat) (Call Nat) (Result Nat)) :
    List Nat × List Nat × List (Option (Result Nat)) :=
  (c.shared.buf, c.shared.ids, c.results)

def after : List Nat × List Nat × List (Option (Result Nat)) :=
  ([3, 2], [2, 4], [some (.plain (.write 3 none)), some (.removed 1),
    some (.plain (.next (.ok 2))), some (.plain (.err none))])

end Sample

end Runs

end Growable

end GizClaw.Buffer

import GizClaw.Buffer.Ring

-- The circular storage is a queue, and each of its operations one of the queue.

namespace GizClaw.Buffer

open List (length_take length_append length_drop rtake)

variable {T : Type}

-- The storage has `size` cells and holds the elements of `q`, the oldest first.
structure Storage.Holds (s : Storage T) (size : Nat) (q : List T) : Prop where
  pos : 0 < size
  size_eq : s.buf.length = size
  cells : ∃ h : Nat, s.head = h ∧ s.tail = h + q.length ∧ Circular.Holds s.buf h q

theorem Storage.tail_discard (s : Storage T) (n : Int) : (s.discard n).tail = s.tail := by
  unfold Storage.discard
  split <;> rfl

namespace Storage.Holds

variable {s : Storage T} {size : Nat} {q : List T}

theorem init {buf : List T} (h : buf ≠ []) : ({ buf } : Storage T).Holds buf.length [] :=
  ⟨List.length_pos_of_ne_nil h, rfl, 0, rfl, rfl, .empty buf 0⟩

theorem index_natCast (s : Storage T) (i : Nat) : s.index i = i % s.buf.length :=
  rfl

section

variable (h : s.Holds size q)
include h

theorem length_le : q.length ≤ size := by
  have ⟨_, _, _, hc⟩ := h.cells
  exact h.size_eq ▸ hc.length_le

theorem len : s.len = q.length := by
  have ⟨_, hh, ht, _⟩ := h.cells
  rw [Storage.len, hh, ht]
  omega

theorem head_eq_tail_iff : s.head = s.tail ↔ q = [] := by
  have ⟨_, hh, ht, _⟩ := h.cells
  rw [hh, ht, ← List.length_eq_zero_iff]
  omega

theorem drop (hk : k ≤ q.length) : { s with head := s.head + k }.Holds size (q.drop k) := by
  have ⟨i, hh, ht, hc⟩ := h.cells
  refine ⟨h.pos, h.size_eq, i + k, ?_, ?_, hc.drop hk⟩
  · simp [hh]
  · simp only [ht, length_drop]
    omega

theorem discard (hn : 0 ≤ n) : (s.discard n).Holds size (q.drop n.toNat) := by
  have ⟨i, hh, ht, _⟩ := h.cells
  unfold Storage.discard
  rw [h.len]
  split
  case isTrue =>
    have hd := h.drop le_rfl
    rw [List.drop_length, show s.head + q.length = s.tail by omega] at hd
    rwa [List.drop_of_length_le (by omega)]
  case isFalse =>
    have hd := h.drop (k := n.toNat) (by omega)
    rwa [show ((n.toNat : Nat) : Int) = n by omega] at hd

theorem head_discard (hn : 0 ≤ n) : (s.discard n).head = s.head + (q.take n.toNat).length := by
  have ⟨i, hh, ht, _⟩ := h.cells
  unfold Storage.discard
  rw [h.len, length_take]
  split
  case isTrue => simp only [hh, ht]; omega
  case isFalse => simp only []; omega

theorem read (k : Nat) : (s.read k).fst = q.take k ∧ (s.read k).snd.Holds size (q.drop k) := by
  have ⟨i, hh, ht, hc⟩ := h.cells
  have hp : (s.read k).fst = q.take k := by
    simp only [Storage.read, h.len, hh, index_natCast, Int.toNat_natCast]
    exact hc.read (by rw [h.size_eq]; exact h.pos) k
  have hd := h.drop (k := (q.take k).length) (by rw [length_take]; omega)
  rw [length_take, ← List.drop_eq_drop_min, ← length_take, ← hp] at hd
  exact ⟨hp, hd⟩

end

theorem next [Inhabited T] (h : s.Holds size (t :: q)) :
    s.next.fst = t ∧ s.next.snd.Holds size q := by
  have ⟨i, hh, ht, hc⟩ := h.cells
  have hg := hc.getElem? (List.cons_ne_nil t q)
  refine ⟨?_, h.drop (k := 1) (by simp)⟩
  simp only [Storage.next, hh, index_natCast, List.getD_eq_getElem?_getD, hg]
  rfl

section

variable (h : s.Holds size q)
include h

theorem append (p : List T) :
    (s.append p).fst.Holds size (q ++ p.take (size - q.length)) ∧
      (s.append p).snd = min (size - q.length) p.length := by
  have ⟨i, hh, ht, hc⟩ := h.cells
  have hb : 0 < s.buf.length := by rw [h.size_eq]; exact h.pos
  have hidx : s.index s.tail = (i + q.length) % s.buf.length := by
    rw [ht, ← Int.natCast_add, index_natCast]
  have havail : ((s.buf.length : Int) - s.len).toNat = s.buf.length - q.length := by
    rw [h.len]
    omega
  have hn : (Circular.fill s.buf ((i + q.length) % s.buf.length) (s.buf.length - q.length) p).snd =
      min (s.buf.length - q.length) p.length := Circular.snd_fill (Nat.mod_lt (i + q.length) hb)
  simp only [Storage.append, hidx, havail]
  rw [← h.size_eq]
  refine ⟨⟨hb, Circular.length_fill (Nat.sub_le ..), i, hh, ?_, hc.fill hb p⟩, hn⟩
  simp only [ht, hn, length_append, length_take]
  omega

theorem add (hlt : q.length < size) (t : T) : (s.add t).Holds size (q ++ [t]) := by
  have ⟨i, hh, ht, hc⟩ := h.cells
  have hb : 0 < s.buf.length := by rw [h.size_eq]; exact h.pos
  have hidx : s.index s.tail = (i + q.length) % s.buf.length := by
    rw [ht, ← Int.natCast_add, index_natCast]
  have hf := hc.fill hb [t]
  rw [Circular.fill_singleton (Nat.mod_lt _ hb) (by rw [h.size_eq]; omega),
    List.take_of_length_le (by simp [h.size_eq]; omega)] at hf
  refine ⟨h.pos, by simp [Storage.add, h.size_eq], i, hh, ?_, by rwa [Storage.add, hidx]⟩
  simp only [Storage.add, ht, length_append, List.length_singleton]
  omega

theorem reset : s.reset.Holds size [] :=
  ⟨h.pos, h.size_eq, 0, rfl, rfl, .empty s.buf 0⟩

theorem bytes (hne : q ≠ []) : s.bytes = q := by
  have ⟨i, hh, ht, hc⟩ := h.cells
  have hb : 0 < s.buf.length := by rw [h.size_eq]; exact h.pos
  rw [Storage.bytes, hh, ht, ← Int.natCast_add, index_natCast, index_natCast]
  exact hc.between hb hne

end

-- The start and the end of nothing are the start and the end of everything.
theorem length_bytes_empty (h : s.Holds size []) : s.bytes.length = size := by
  have ⟨i, hh, ht, _⟩ := h.cells
  have hb : 0 < s.buf.length := by rw [h.size_eq]; exact h.pos
  have he : s.tail = i := by simpa using ht
  rw [Storage.bytes, hh, he, index_natCast, Circular.between_same _ _ hb, List.length_rotate,
    h.size_eq]

theorem bytes_eq_iff (h : s.Holds size q) : s.bytes = q ↔ q ≠ [] := by
  constructor
  case mpr => exact h.bytes
  case mp =>
    rintro hb rfl
    have hl := h.length_bytes_empty
    rw [hb] at hl
    exact h.pos.ne hl

-- When all cells are taken, what is put to the head becomes the last.
theorem overwrite_full (h : s.Holds size q) (hf : q.length = size)
    (hl : c.length + b.length ≤ size) :
    Holds { buf := Circular.overwrite s.buf (s.index s.head) c b
            head := s.head + c.length
            tail := s.tail + c.length } size (b ++ q.drop (c.length + b.length) ++ c) := by
  have ⟨i, hh, ht, hc⟩ := h.cells
  have hb : 0 < s.buf.length := by rw [h.size_eq]; exact h.pos
  rw [← h.size_eq] at hl hf
  rw [hh, index_natCast]
  refine ⟨h.pos, ?_, i + c.length, by simp, ?_, hc.overwrite hb hf hl⟩
  · exact (Circular.Holds.length_overwrite (Nat.mod_lt i hb) hl).trans h.size_eq
  · simp only [ht, length_append, length_drop]
    omega

theorem rtake_of_length_le {l : List T} (h : l.length ≤ n) : l.rtake n = l := by
  rw [rtake, Nat.sub_eq_zero_of_le h, List.drop_zero]

theorem addLast (h : s.Holds size q) (t : T) :
    (s.addLast t).Holds size ((q ++ [t]).rtake size) := by
  unfold Storage.addLast
  dsimp only
  rcases h.length_le.lt_or_eq with hlt | hf
  case inl =>
    have ha := h.add hlt t
    rw [ha.size_eq, ha.len, if_neg (by simp; omega), rtake_of_length_le (by simp; omega)]
    exact ha
  case inr =>
    have ⟨i, hh, ht, _⟩ := h.cells
    have hb : 0 < s.buf.length := by rw [h.size_eq]; exact h.pos
    have hidx : s.index s.tail = s.index s.head := by
      rw [ht, hh, ← Int.natCast_add, index_natCast, index_natCast, hf, ← h.size_eq,
        Nat.add_mod_right]
    have hlen : (s.add t).len = size + 1 := by
      have := h.len
      simp only [Storage.add, Storage.len] at this ⊢
      omega
    have ho := h.overwrite_full hf (c := [t]) (b := []) h.pos
    have hi : s.index s.head < s.buf.length := by
      rw [hh, index_natCast]
      exact Nat.mod_lt i hb
    rw [Circular.overwrite_singleton hi, ← hidx] at ho
    have hover : ((s.add t).buf.length : Int) < size + 1 := by
      simp only [Storage.add, List.length_set, h.size_eq]
      omega
    rw [hlen, if_pos hover, rtake, length_append, hf, List.length_singleton,
      Nat.add_sub_cancel_left, List.drop_append_of_le_length (by rw [hf]; exact h.pos)]
    exact ho

theorem overwrite (h : s.Holds size q) (p : List T) :
    (s.overwrite p).fst.Holds size ((q ++ p).rtake size) ∧ (s.overwrite p).snd = p.length := by
  have hle := h.length_le
  -- The free cells are filled first.
  have ⟨s₁, wn, he, h₁, hwn⟩ : ∃ s₁ wn,
      (if 0 < (s.buf.length : Int) - s.len then s.append p else (s, 0)) = (s₁, wn) ∧
      s₁.Holds size (q ++ p.take (size - q.length)) ∧ wn = min (size - q.length) p.length := by
    rw [h.size_eq, h.len]
    split
    case isTrue => exact ⟨_, _, rfl, h.append p⟩
    case isFalse =>
      have hz : size - q.length = 0 := by omega
      exact ⟨s, 0, rfl, by simpa [hz] using h, by simp [hz]⟩
  unfold Storage.overwrite
  dsimp only
  rw [he]
  rw [h.size_eq, hwn]
  split
  case isTrue =>
    rw [List.take_of_length_le (by omega)] at h₁
    exact ⟨by rwa [rtake_of_length_le (by simp; omega)], by omega⟩
  case isFalse =>
    have hfull : (q ++ p.take (size - q.length)).length = size := by
      rw [length_append, length_take]
      omega
    have hleft : p.length - min (size - q.length) p.length = q.length + p.length - size := by omega
    refine ⟨?_, rfl⟩
    rw [hleft, rtake, length_append]
    split
    case isTrue =>
      have ho := h₁.overwrite_full hfull (c := p.drop (size - q.length)) (b := [])
        (by simp; omega)
      rw [show p.length - (q.length + p.length - size) = size - q.length by omega]
      have hd : (q ++ p).drop (q.length + p.length - size) =
          (q ++ p.take (size - q.length)).drop (q.length + p.length - size) ++
            p.drop (size - q.length) := by
        rw [← List.drop_append_of_le_length (by omega), List.append_assoc, List.take_append_drop]
      rw [hd]
      have hc : (p.drop (size - q.length)).length + ([] : List T).length =
          q.length + p.length - size := by
        simp only [length_drop, List.length_nil]
        omega
      rwa [hc, List.nil_append] at ho
    case isFalse =>
      have hcn := Nat.mod_lt (q.length + p.length - size) h.pos
      generalize (q.length + p.length - size) % size = cn at hcn ⊢
      have hc : (p.drop (p.length - cn)).length = cn := by
        rw [length_drop]
        omega
      have hb : ((p.drop (p.length - size)).take (size - cn)).length = size - cn := by
        rw [length_take, length_drop]
        omega
      have ho := h₁.overwrite_full hfull (c := p.drop (p.length - cn))
        (b := (p.drop (p.length - size)).take (size - cn)) (by rw [hc, hb]; omega)
      -- Both pieces together are the end of what is written.
      have he : (p.drop (p.length - size)).drop (size - cn) = p.drop (p.length - cn) := by
        rw [List.drop_drop]
        congr 1
        omega
      have hd : (q ++ p).drop (q.length + p.length - size) = p.drop (p.length - size) := by
        rw [show q.length + p.length - size = q.length + (p.length - size) by omega,
          ← List.drop_drop, List.drop_left]
      have hbc : (p.drop (p.length - size)).take (size - cn) ++ p.drop (p.length - cn) =
          (q ++ p).drop (q.length + p.length - size) := by
        rw [← he, List.take_append_drop, hd]
      rw [hb, hc, Nat.add_sub_cancel' hcn.le, List.drop_of_length_le hfull.le, List.append_nil,
        hbc] at ho
      rwa [hc]

end Storage.Holds

namespace Fixed

variable {s : Fixed T} {size : Nat} {q : List T}

theorem isEmpty_iff (h : s.storage.Holds size q) : s.isEmpty ↔ q = [] := by
  rw [isEmpty, decide_eq_true_eq, h.head_eq_tail_iff]

theorem isFull_iff (h : s.storage.Holds size q) : s.isFull ↔ q.length = size := by
  rw [isFull, decide_eq_true_eq, h.len, h.size_eq]
  omega

end Fixed

end GizClaw.Buffer

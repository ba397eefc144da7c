import Mathlib

-- Lists as circular storage. What is held starts somewhere, goes on behind the end at the front,
-- and is followed by cells that are free.

namespace Circular

open List (append_assoc length_drop length_append rotate_append_length_eq drop_drop rotate_mod)

variable {T : Type}

-- `copy(buf[lo:hi], src)`: the cells are overwritten as far as both go, and their number returned.
def copy (buf : List T) (lo hi : Nat) (src : List T) : List T × Nat :=
  let n := min (hi - lo) src.length
  (buf.take lo ++ src.take n ++ buf.drop (lo + n), n)

-- As much of `src` as `avail` cells can take is put to `start` and, behind the end, to the front.
def fill (buf : List T) (start avail : Nat) (src : List T) : List T × Nat :=
  if start + avail ≤ buf.length then
    copy buf start (start + avail) src
  else
    let (buf₁, n) := copy buf start buf.length src
    let (buf₂, m) := copy buf₁ 0 (avail - n) (src.drop n)
    (buf₂, n + m)

-- At most `k` of the `avail` elements from `start` on.
def read (buf : List T) (start avail k : Nat) : List T :=
  if start + avail ≤ buf.length then
    ((buf.drop start).take avail).take k
  else
    let first := (buf.drop start).take k
    first ++ (buf.take (avail - first.length)).take (k - first.length)

-- The cells from `start` to `stop`, which goes around when it is not behind the start.
def between (buf : List T) (start stop : Nat) : List T :=
  if start < stop then (buf.drop start).take (stop - start) else buf.drop start ++ buf.take stop

theorem rotate_eq {buf : List T} (h : start < buf.length) :
    buf.rotate start = buf.drop start ++ buf.take start :=
  List.rotate_eq_drop_append_take h.le

theorem rotate_append {a b : List T} (h : a.length = k) : (a ++ b).rotate k = b ++ a :=
  h ▸ rotate_append_length_eq a b

theorem rotate_mod_of_length {buf : List T} (h : buf.length = n) (i : Nat) :
    buf.rotate (i % n) = buf.rotate i :=
  h ▸ rotate_mod buf i

theorem read_eq {buf : List T} (k : Nat) (hs : start < buf.length) (ha : avail ≤ buf.length) :
    read buf start avail k = ((buf.rotate start).take avail).take k := by
  have hl : (buf.drop start).length = buf.length - start := length_drop
  unfold read
  rw [rotate_eq hs, List.take_append, hl]
  split
  case isTrue => rw [show avail - (buf.length - start) = 0 by omega]; simp
  case isFalse =>
    rw [List.take_of_length_le (by omega : (buf.drop start).length ≤ avail), List.take_append, hl]
    dsimp only
    congr 1
    rw [List.length_take, hl, List.take_take, List.take_take, List.take_take]
    -- Nothing is left to read at the front, or the first part went to the end.
    rcases Nat.le_total k (buf.length - start) with hk | hk
    case inl => rw [Nat.min_eq_left hk, Nat.sub_self, Nat.sub_eq_zero_of_le hk]; simp
    case inr =>
      congr 1
      omega

section Fill

variable {buf src : List T} {start avail : Nat}

@[simp]
theorem length_copy (h : hi ≤ buf.length) : (copy buf lo hi src).fst.length = buf.length := by
  simp only [copy, length_append, List.length_take, length_drop]
  omega

theorem length_fill (ha : avail ≤ buf.length) :
    (fill buf start avail src).fst.length = buf.length := by
  unfold fill
  split
  case isTrue h => exact length_copy h
  case isFalse =>
    have h₁ : (copy buf start buf.length src).fst.length = buf.length := length_copy le_rfl
    exact (length_copy (by rw [h₁]; omega)).trans h₁

theorem snd_fill (hs : start < buf.length) :
    (fill buf start avail src).snd = min avail src.length := by
  unfold fill copy
  split
  case isTrue => simp
  case isFalse =>
    simp only [length_drop]
    omega

theorem copy_nil (buf : List T) (lo hi : Nat) : copy buf lo hi [] = (buf, 0) := by
  simp [copy]

theorem copy_append (a b : List T) (hi : Nat) :
    copy (a ++ b) a.length hi src =
      (a ++ (src.take (min (hi - a.length) src.length) ++
        b.drop (min (hi - a.length) src.length)), min (hi - a.length) src.length) := by
  simp [copy, List.drop_append]

theorem copy_zero (a b : List T) (h : min hi src.length ≤ a.length) :
    copy (a ++ b) 0 hi src =
      ((src.take (min hi src.length) ++ a.drop (min hi src.length)) ++ b,
        min hi src.length) := by
  simp only [copy, List.take_zero, List.nil_append, Nat.zero_add, Nat.sub_zero]
  rw [List.drop_append_of_le_length h, append_assoc]

theorem rotate_copy_zero {hi : Nat} (a b : List T) (h : min hi src.length ≤ a.length) :
    (copy (a ++ b) 0 hi src).fst.rotate a.length =
      b ++ (src.take hi ++ a.drop (min hi src.length)) := by
  have hl : (src.take hi ++ a.drop (min hi src.length)).length = a.length := by
    simp only [length_append, List.length_take, length_drop]
    omega
  rw [copy_zero a b h]
  rw [← List.take_eq_take_min, rotate_append hl]

theorem rotate_fill (hs : start < buf.length) (ha : avail ≤ buf.length) :
    (fill buf start avail src).fst.rotate start =
      src.take avail ++ (buf.rotate start).drop (min avail src.length) := by
  have ⟨a, b, hb, hl⟩ : ∃ a b, buf = a ++ b ∧ a.length = start :=
    ⟨buf.take start, buf.drop start, by simp, List.length_take_of_le hs.le⟩
  subst hb hl
  rw [length_append] at ha
  have htake (n : Nat) : src.take (min n src.length) = src.take n := List.take_eq_take_min.symm
  unfold fill
  rw [rotate_append_length_eq]
  split
  case isTrue h =>
    rw [length_append] at h
    rw [copy_append, Nat.add_sub_cancel_left]
    rw [rotate_append_length_eq, htake, append_assoc,
      ← List.drop_append_of_le_length (by omega)]
  case isFalse h =>
    rw [length_append] at h ⊢
    rw [copy_append, Nat.add_sub_cancel_left]
    dsimp only
    rcases Nat.le_total src.length b.length with hsrc | hsrc
    case inl =>
      rw [Nat.min_eq_right hsrc, List.drop_length, copy_nil, rotate_append_length_eq,
        Nat.min_eq_right (by omega), List.take_length, List.take_of_length_le (by omega),
        List.drop_append_of_le_length hsrc, append_assoc]
    case inr =>
      have hm : min avail src.length =
          b.length + min (avail - b.length) (src.length - b.length) := by omega
      rw [Nat.min_eq_left hsrc, List.drop_length, List.append_nil,
        rotate_copy_zero _ _ (by omega), length_drop, hm, ← drop_drop,
        List.drop_left, ← append_assoc, ← List.take_add, Nat.add_sub_cancel' (by omega)]

theorem copy_singleton (hs : start < buf.length) (hh : start < hi) (t : T) :
    copy buf start hi [t] = (buf.set start t, 1) := by
  have hn : min (hi - start) 1 = 1 := by omega
  simp only [copy, List.length_singleton, hn]
  rw [List.set_eq_take_append_cons_drop, if_pos hs]
  simp

theorem fill_singleton (hs : start < buf.length) (ha : 0 < avail) (t : T) :
    (fill buf start avail [t]).fst = buf.set start t := by
  unfold fill
  split
  case isTrue => rw [copy_singleton hs (by omega)]
  case isFalse => rw [copy_singleton hs hs]; simp [copy_nil]

end Fill

-- `c` is put to `start` and `b` behind it, both going on at the front behind the end.
def overwrite (buf : List T) (start : Nat) (c b : List T) : List T :=
  let (buf₁, cp₁) := copy buf start buf.length c
  if cp₁ < c.length then
    let (buf₂, cp₂) := copy buf₁ 0 buf.length (c.drop cp₁)
    (copy buf₂ cp₂ buf.length b).fst
  else
    let (buf₂, bp₁) := copy buf₁ (start + cp₁) buf.length b
    (copy buf₂ 0 buf.length (b.drop bp₁)).fst

theorem overwrite_singleton (hs : start < buf.length) (t : T) :
    overwrite buf start [t] [] = buf.set start t := by
  unfold overwrite
  rw [copy_singleton hs hs]
  simp [copy_nil]

theorem rotate_overwrite {buf c b : List T} (hs : start < buf.length)
    (hl : c.length + b.length ≤ buf.length) :
    (overwrite buf start c b).rotate start =
      c ++ b ++ (buf.rotate start).drop (c.length + b.length) := by
  have ⟨x, y, hb, hx⟩ : ∃ x y, buf = x ++ y ∧ x.length = start :=
    ⟨buf.take start, buf.drop start, by simp, List.length_take_of_le hs.le⟩
  subst hb hx
  rw [length_append] at hl
  unfold overwrite
  rw [rotate_append_length_eq, length_append, copy_append, Nat.add_sub_cancel_left]
  dsimp only
  split
  case isTrue =>
    -- The end of `c` is at the front, and `b` is in front of the start.
    have hc : y.length < c.length := by omega
    have hn : min (x.length + y.length) (c.drop y.length).length = c.length - y.length := by
      rw [length_drop]
      omega
    have hk : (c.drop y.length).length = c.length - y.length := length_drop
    have hd : (y ++ x).drop (c.length + b.length) = x.drop (c.length - y.length + b.length) := by
      rw [show c.length + b.length = y.length + (c.length - y.length + b.length) by omega,
        ← drop_drop, List.drop_left]
    have hx : (c.drop y.length ++ (b ++ x.drop (c.length - y.length + b.length))).length =
        x.length := by
      simp only [length_append, length_drop]
      omega
    rw [Nat.min_eq_left hc.le, List.drop_length, List.append_nil,
      copy_zero x _ (by rw [hn]; omega), hn]
    rw [← hk, List.take_length, append_assoc, copy_append, hk, Nat.min_eq_right (by omega),
      List.take_length, List.drop_append_of_le_length (by rw [length_drop]; omega),
      drop_drop]
    rw [← append_assoc b, ← append_assoc (c.drop y.length), rotate_append hx, hd,
      ← append_assoc, List.take_append_drop, append_assoc]
  case isFalse =>
    have hc : c.length ≤ y.length := by omega
    have hcopy : copy (x ++ (c ++ y.drop c.length)) (x.length + c.length) (x.length + y.length) b =
        (x ++ (c ++ (b.take (min (y.length - c.length) b.length) ++
          y.drop (c.length + min (y.length - c.length) b.length))),
          min (y.length - c.length) b.length) := by
      rw [← append_assoc, ← length_append, copy_append, length_append,
        Nat.add_sub_add_left, drop_drop, append_assoc]
    rw [Nat.min_eq_right hc, List.take_length, hcopy]
    rw [rotate_copy_zero _ _ (by rw [length_drop]; omega), length_drop]
    rcases Nat.le_total b.length (y.length - c.length) with hb | hb
    case inl =>
      rw [Nat.min_eq_right hb, List.drop_length, List.take_length, Nat.sub_self, Nat.min_zero,
        List.drop_append_of_le_length (by omega)]
      simp
    case inr =>
      have hd : (y ++ x).drop (c.length + b.length) =
          x.drop (b.length - (y.length - c.length)) := by
        rw [show c.length + b.length = y.length + (b.length - (y.length - c.length)) by omega,
          ← drop_drop, List.drop_left]
      have ht : (b.drop (y.length - c.length)).take (x.length + y.length) =
          b.drop (y.length - c.length) :=
        List.take_of_length_le (by rw [length_drop]; omega)
      rw [Nat.min_eq_left hb, Nat.add_sub_cancel' hc, List.drop_length, List.append_nil,
        Nat.min_eq_right (by omega), ht, hd]
      simp only [append_assoc]
      rw [← append_assoc (b.take _), List.take_append_drop]

-- `q` is held from `h` on.
def Holds (buf : List T) (h : Nat) (q : List T) : Prop :=
  ∃ free, buf.rotate h = q ++ free

namespace Holds

variable {buf q : List T} {h : Nat}

theorem empty (buf : List T) (h : Nat) : Holds buf h [] :=
  ⟨buf.rotate h, rfl⟩

section

variable (hq : Holds buf h q)
include hq

theorem length_le : q.length ≤ buf.length := by
  have ⟨free, hf⟩ := hq
  rw [← List.length_rotate buf h, hf, length_append]
  exact Nat.le_add_right ..

theorem mod : Holds buf (h % buf.length) q := by
  have ⟨free, hf⟩ := hq
  exact ⟨free, by rw [rotate_mod, hf]⟩

theorem read (hb : 0 < buf.length) (k : Nat) :
    Circular.read buf (h % buf.length) q.length k = q.take k := by
  have ⟨free, hf⟩ := hq.mod
  rw [read_eq k (Nat.mod_lt h hb) hq.length_le, hf, List.take_left]

theorem getElem? (hne : q ≠ []) : buf[h % buf.length]? = q.head? := by
  have ⟨free, hf⟩ := hq.mod
  have hb : 0 < buf.length := lt_of_lt_of_le (List.length_pos_of_ne_nil hne) hq.length_le
  rw [← List.head?_rotate (Nat.mod_lt h hb), hf, List.head?_append_of_ne_nil _ hne]

-- What was at the front is free now.
theorem drop {k : Nat} (hk : k ≤ q.length) : Holds buf (h + k) (q.drop k) := by
  have ⟨free, hf⟩ := hq
  refine ⟨free ++ q.take k, ?_⟩
  have hs : q ++ free = q.take k ++ (q.drop k ++ free) := by
    rw [← append_assoc, List.take_append_drop]
  rw [← List.rotate_rotate, hf, hs, rotate_append (List.length_take_of_le hk), append_assoc]

theorem fill (hb : 0 < buf.length) (src : List T) :
    Holds (Circular.fill buf ((h + q.length) % buf.length) (buf.length - q.length) src).fst h
      (q ++ src.take (buf.length - q.length)) := by
  have ⟨free, hf⟩ := hq
  have hl : buf.length - q.length = free.length := by
    rw [← List.length_rotate buf h, hf, length_append, Nat.add_sub_cancel_left]
  have hlen : (Circular.fill buf ((h + q.length) % buf.length) (buf.length - q.length)
      src).fst.length = buf.length := length_fill (Nat.sub_le ..)
  have hr : (Circular.fill buf ((h + q.length) % buf.length) (buf.length - q.length)
      src).fst.rotate ((h + q.length) % buf.length) = _ :=
    rotate_fill (Nat.mod_lt (h + q.length) hb) (Nat.sub_le ..)
  refine ⟨free.drop (min (buf.length - q.length) src.length), ?_⟩
  rw [rotate_mod_of_length hlen, rotate_mod, ← List.rotate_rotate, ← List.rotate_rotate, hf,
    rotate_append_length_eq, List.drop_append_of_le_length (by omega)] at hr
  refine List.rotate_injective q.length ?_
  dsimp only
  rw [hr, append_assoc q, rotate_append_length_eq, append_assoc]

end

theorem length_overwrite (hs : start < buf.length)
    (hl : c.length + b.length ≤ buf.length) : (overwrite buf start c b).length = buf.length := by
  have h := congrArg List.length (rotate_overwrite hs hl)
  simp only [List.length_rotate, length_append, length_drop] at h
  omega

-- Where nothing is free, what is put to the start comes behind everything that is kept.
theorem overwrite (hq : Holds buf h q) (hb : 0 < buf.length) (hf : q.length = buf.length)
    {c b : List T} (hl : c.length + b.length ≤ buf.length) :
    Holds (Circular.overwrite buf (h % buf.length) c b) (h + c.length)
      (b ++ q.drop (c.length + b.length) ++ c) := by
  have ⟨free, hq⟩ := hq
  have hfree : free = [] := by
    have := congrArg List.length hq
    rw [List.length_rotate, length_append] at this
    exact List.length_eq_zero_iff.mp (by omega)
  have hlt := Nat.mod_lt h hb
  have hr := rotate_overwrite hlt hl
  rw [rotate_mod_of_length (length_overwrite hlt hl), rotate_mod, hq, hfree,
    List.append_nil] at hr
  refine ⟨[], ?_⟩
  rw [← List.rotate_rotate, hr, append_assoc, rotate_append_length_eq, List.append_nil]

theorem between (hq : Holds buf h q) (hb : 0 < buf.length) (hne : q ≠ []) :
    Circular.between buf (h % buf.length) ((h + q.length) % buf.length) = q := by
  have hpos := List.length_pos_of_ne_nil hne
  have hle := hq.length_le
  have hlt := Nat.mod_lt h hb
  have ⟨free, hf⟩ := hq.mod
  rw [rotate_eq hlt] at hf
  have htake : (buf.drop (h % buf.length) ++ buf.take (h % buf.length)).take q.length = q := by
    rw [hf, List.take_left]
  have hl : (buf.drop (h % buf.length)).length = buf.length - h % buf.length := length_drop
  unfold Circular.between
  rw [← Nat.mod_add_mod]
  -- Either the elements end in front of the end, or they go around.
  rcases Nat.lt_or_ge (h % buf.length + q.length) buf.length with hw | hw
  case inl =>
    rw [Nat.mod_eq_of_lt hw, if_pos (by omega), Nat.add_sub_cancel_left]
    rwa [List.take_append_of_le_length (by omega)] at htake
  case inr =>
    have hm : (h % buf.length + q.length) % buf.length =
        h % buf.length + q.length - buf.length := by
      rw [Nat.mod_eq_sub_mod hw]
      exact Nat.mod_eq_of_lt (by omega)
    rw [hm, if_neg (by omega)]
    rw [List.take_append, hl, List.take_of_length_le (by omega), List.take_take] at htake
    rwa [show min (q.length - (buf.length - h % buf.length)) (h % buf.length) =
      h % buf.length + q.length - buf.length by omega] at htake

end Holds

theorem between_same (buf : List T) (h : Nat) (hb : 0 < buf.length) :
    between buf (h % buf.length) (h % buf.length) = buf.rotate h := by
  rw [between, if_neg (Nat.lt_irrefl _), ← rotate_eq (Nat.mod_lt h hb), rotate_mod]

end Circular

import GizClaw.Lib.Except

-- Pages that are cut from merges of sorted lists, and cursors that lead from one page to the next.

namespace Paging

section Ascending

variable {α β : Type} [LinearOrder β] {k : α → β} {l l' : List α} {x : α} {n : Nat}

-- The keys of the list strictly increase.
def Ascending (k : α → β) (l : List α) : Prop :=
  l.Pairwise fun a b => k a < k b

theorem Ascending.nodup (h : Ascending k l) : l.Nodup :=
  h.imp fun hab he => (ne_of_lt hab) (congrArg k he)

theorem Ascending.eq_of_mem_iff (h : Ascending k l) (h' : Ascending k l')
    (hm : ∀ x, x ∈ l ↔ x ∈ l') : l = l' :=
  List.Perm.eq_of_pairwise (fun _ _ _ _ hab hba => absurd (hab.trans hba) (lt_irrefl _)) h h'
    ((List.perm_ext_iff_of_nodup h.nodup h'.nodup).mpr hm)

theorem Ascending.lt_of_take (h : Ascending k l) (hx : x ∈ l.take n) (hy : y ∈ l)
    (hn : y ∉ l.take n) : k x < k y := by
  rw [← List.take_append_drop n l, List.mem_append] at hy
  rw [← List.take_append_drop n l] at h
  exact (List.pairwise_append.mp h).right.right x hx y (hy.resolve_left hn)

theorem Ascending.mem_of_append (h : Ascending k (l₁ ++ x :: l₂)) :
    y ∈ l₂ ↔ y ∈ l₁ ++ x :: l₂ ∧ k x < k y := by
  have ⟨_, h₂, h₁₂⟩ := List.pairwise_append.mp h
  have ⟨hx, _⟩ := List.pairwise_cons.mp h₂
  constructor
  case mp => exact fun hy => ⟨by simp [hy], hx y hy⟩
  case mpr =>
    rintro ⟨hy, hlt⟩
    rcases List.mem_append.mp hy with hy | hy
    case inl => exact absurd hlt (h₁₂ y hy x List.mem_cons_self).asymm
    case inr =>
      rcases List.mem_cons.mp hy with rfl | hy
      case inl => exact absurd hlt (lt_irrefl _)
      case inr => exact hy

theorem Ascending.mem_dropLast (h : Ascending k l) (hx : x ∈ l) (hy : y ∈ l)
    (hlt : k x < k y) : x ∈ l.dropLast := by
  rcases List.eq_nil_or_concat l with rfl | ⟨l', z, rfl⟩
  case inl => simp at hx
  case inr =>
    rw [List.concat_eq_append] at h hx hy ⊢
    rw [List.dropLast_concat]
    rcases List.mem_append.mp hx with hx | hx
    case inl => exact hx
    case inr =>
      rw [List.mem_singleton] at hx
      subst hx
      rcases List.mem_append.mp hy with hy | hy
      case inl =>
        exact absurd hlt ((List.pairwise_append.mp h).right.right y hy x (by simp)).asymm
      case inr =>
        rw [List.mem_singleton] at hy
        exact absurd hlt (hy ▸ lt_irrefl _)

-- An element of the first `n` cannot have `n` others before it.
theorem Ascending.mem_take (h : Ascending k l) (h' : Ascending k l') (hx : x ∈ l)
    (hx' : x ∈ l'.take n) (hsub : ∀ y ∈ l.take n, y ∈ l') : x ∈ l.take n := by
  by_contra hn
  have hlen : (l.take n).length = n := by
    rw [List.length_take, min_eq_left]
    by_contra hlt
    exact hn (by rwa [List.take_of_length_le (by omega)])
  have hbefore : x :: l.take n ⊆ l'.take n := by
    refine List.cons_subset.mpr ⟨hx', fun y hy => ?_⟩
    have hlt : k y < k x := h.lt_of_take hy hx hn
    by_contra hny
    exact absurd (h'.lt_of_take hx' (hsub y hy) hny) hlt.asymm
  have hnd : (x :: l.take n).Nodup :=
    List.nodup_cons.mpr ⟨hn, h.nodup.sublist (List.take_sublist n l)⟩
  have hle := (List.subperm_of_subset hnd hbefore).length_le
  rw [List.length_cons, hlen] at hle
  have hmax := List.length_take_le n l'
  omega

-- The first `n` of a merge are found among the first `n` of each list.
theorem take_eq_of_prefixes {L : List (List α)} (hls : ∀ l ∈ L, Ascending k l) (hr : Ascending k r)
    (hr' : Ascending k r') (hm : ∀ x, x ∈ r ↔ ∃ l ∈ L, x ∈ l)
    (hm' : ∀ x, x ∈ r' ↔ ∃ l ∈ L, x ∈ l.take n) : r'.take n = r.take n := by
  have hsub : ∀ x ∈ r.take n, x ∈ r' := by
    intro x hx
    have ⟨l, hl, hxl⟩ := (hm x).mp (List.mem_of_mem_take hx)
    refine (hm' x).mpr ⟨l, hl, (hls l hl).mem_take hr hxl hx fun y hy => ?_⟩
    exact (hm y).mpr ⟨l, hl, List.mem_of_mem_take hy⟩
  have hsub' : ∀ x ∈ r', x ∈ r := by
    intro x hx
    have ⟨l, hl, hxl⟩ := (hm' x).mp hx
    exact (hm x).mpr ⟨l, hl, List.mem_of_mem_take hxl⟩
  refine Ascending.eq_of_mem_iff (hr'.sublist (List.take_sublist n r'))
    (hr.sublist (List.take_sublist n r)) fun x => ⟨fun hx => ?_, fun hx => ?_⟩
  · exact hr.mem_take hr' (hsub' x (List.mem_of_mem_take hx)) hx hsub
  · exact hr'.mem_take hr (hsub x hx) hx fun y hy => hsub' y (List.mem_of_mem_take hy)

theorem filterMap_take {γ : Type} {f : α → Option γ} (h : ∀ a ∈ l, ∃ c, f a = some c) (n : Nat) :
    (l.take n).filterMap f = (l.filterMap f).take n := by
  induction l generalizing n
  case nil => simp
  case cons a l hi =>
    cases n
    case zero => simp
    case succ =>
      have ⟨c, hc⟩ := h a List.mem_cons_self
      rw [List.take_succ_cons, List.filterMap_cons_some hc, List.filterMap_cons_some hc,
        List.take_succ_cons, hi (fun b hb => h b (List.mem_cons_of_mem a hb))]

end Ascending

section Sorting

variable {α β : Type} [LinearOrder α]

-- Runs of equal elements are left out but for one element.
def compact : List α → List α
  | [] => []
  | [a] => [a]
  | a :: b :: l => if a = b then compact (b :: l) else a :: compact (b :: l)

theorem mem_compact (l : List α) : x ∈ compact l ↔ x ∈ l := by
  fun_induction compact l
  case case1 | case2 => rfl
  case case3 hi => simp [hi]
  case case4 a b l he hi => rw [List.mem_cons, hi, List.mem_cons (a := x) (b := a)]

theorem ascending_compact {l : List α} (h : l.Pairwise (· ≤ ·)) : Ascending id (compact l) := by
  fun_induction compact l
  case case1 => exact .nil
  case case2 => exact List.pairwise_singleton _ _
  case case3 hi => exact hi h.of_cons
  case case4 a b l he hi =>
    have ⟨ha, hl⟩ := List.pairwise_cons.mp h
    refine List.pairwise_cons.mpr ⟨fun x hx => ?_, hi hl⟩
    have hab : a < b := lt_of_le_of_ne (ha b List.mem_cons_self) he
    have hbx : b ≤ x := by
      rcases List.mem_cons.mp ((mem_compact _).mp hx) with rfl | hx
      case inl => exact le_rfl
      case inr => exact (List.pairwise_cons.mp hl).left x hx
    exact lt_of_lt_of_le hab hbx

end Sorting

section Follow

variable {C T E : Type}

-- Fetches pages until there is no cursor. A page may depend on how many there were before it.
def follow (fetch : Nat → Option C → Except E (List T × Option C)) :
    Nat → Nat → Option C → Except E (Option (List T))
  | 0, _, _ => .ok none
  | fuel + 1, i, cursor => do
    let (page, next) ← fetch i cursor
    match next with
    | none => .ok (some page)
    | some cursor =>
      let rest ← follow fetch fuel (i + 1) (some cursor)
      .ok (rest.map (page ++ ·))

variable {fetch : Nat → Option C → Except E (List T × Option C)}

-- `A cursor l` says that `l` is left to be listed at the cursor.
theorem follow_eq {A : Option C → List T → Prop}
    (h : ∀ i cursor l, A cursor l → ∃ n next, 0 < n ∧ fetch i cursor = .ok (l.take n, next) ∧
      (next = none ∧ l.length ≤ n ∨ ∃ c, next = some c ∧ n < l.length ∧ A next (l.drop n)))
    (ha : A cursor l) (hl : l.length < fuel) : follow fetch fuel i cursor = .ok (some l) := by
  induction fuel generalizing i cursor l
  case zero => omega
  case succ fuel hi =>
    have ⟨n, next, hn, hf, hnext⟩ := h i cursor l ha
    rcases hnext with ⟨rfl, hle⟩ | ⟨c, rfl, hlt, ha⟩
    case inl =>
      rw [List.take_of_length_le hle] at hf
      simp only [follow, hf]
      rfl
    case inr =>
      have hrest := hi (i := i + 1) ha (by rw [List.length_drop]; omega)
      simp only [follow, hf]
      change (follow fetch fuel (i + 1) (some c)).bind _ = _
      rw [hrest]
      simp [Except.bind]

-- What holds of the elements of every page holds of the elements of all pages.
theorem follow_forall {Q : T → Prop}
    (h : ∀ i cursor page next, fetch i cursor = .ok (page, next) → ∀ a ∈ page, Q a)
    (hl : follow fetch fuel i cursor = .ok (some l)) : ∀ a ∈ l, Q a := by
  induction fuel generalizing i cursor l
  case zero => simp [follow] at hl
  case succ hi =>
    have ⟨⟨page, next⟩, hf, hl⟩ := Except.bind_eq_ok.mp hl
    have hp := h i cursor page next hf
    cases next
    case none => cases hl; exact hp
    case some =>
      have ⟨rest, hr, hl⟩ := Except.bind_eq_ok.mp hl
      simp only [Except.ok.injEq, Option.map_eq_some_iff] at hl
      obtain ⟨rest, rfl, rfl⟩ := hl
      intro a ha
      rcases List.mem_append.mp ha with ha | ha
      case inl => exact hp a ha
      case inr => exact hi hr a ha

-- With one element to a page, every element but the last one is behind a cursor.
theorem follow_dropLast {Q : T → Prop}
    (hp : ∀ i cursor page next, fetch i cursor = .ok (page, next) → page.length ≤ 1)
    (hc : ∀ i j cursor page c r, fetch i cursor = .ok (page, some c) → fetch j (some c) = .ok r →
      ∀ a ∈ page, Q a)
    (hl : follow fetch fuel i cursor = .ok (some l)) : ∀ a ∈ l.dropLast, Q a := by
  induction fuel generalizing i cursor l
  case zero => simp [follow] at hl
  case succ fuel hi =>
    have ⟨⟨page, next⟩, hf, hl⟩ := Except.bind_eq_ok.mp hl
    have hlen := hp i cursor page next hf
    cases next
    case none =>
      simp only [Except.ok.injEq, Option.some.injEq] at hl
      subst hl
      have hnil : page.dropLast = [] :=
        List.eq_nil_of_length_eq_zero (by rw [List.length_dropLast]; omega)
      simp [hnil]
    case some c =>
      have ⟨rest, hr, hl⟩ := Except.bind_eq_ok.mp hl
      simp only [Except.ok.injEq, Option.map_eq_some_iff] at hl
      obtain ⟨rest, rfl, rfl⟩ := hl
      have hq : ∀ a ∈ page, Q a := by
        cases fuel
        case zero => simp [follow] at hr
        case succ =>
          have ⟨_, hf', _⟩ := Except.bind_eq_ok.mp hr
          exact hc i (i + 1) cursor page c _ hf hf'
      intro a ha
      cases rest
      case nil =>
        rw [List.append_nil] at ha
        exact hq a ((List.dropLast_sublist page).subset ha)
      case cons =>
        rw [List.dropLast_append_cons] at ha
        rcases List.mem_append.mp ha with ha | ha
        case inl => exact hq a ha
        case inr => exact hi hr a ha

end Follow

end Paging

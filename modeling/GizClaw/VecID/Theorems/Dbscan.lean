import GizClaw.VecID.Dbscan

-- The labels are the connected components of the dense vectors, with their borders.

namespace GizClaw.VecID

open Function (update update_of_ne update_self)

section Density

variable {ι : Type} (core : ι → Prop) (near : ι → ι → Prop)

-- A chain of core vectors, each related to the next.
def Joined : ι → ι → Prop :=
  Relation.ReflTransGen fun i j => core i ∧ core j ∧ near i j

-- What holds of the labels while seeds are left of cluster `k`, the last one.
structure Clustered (labels : ι → Int) (k : Int) (seed : List ι) : Prop where
  count : 0 ≤ k
  range : ∀ i, labels i = 0 ∨ labels i = -1 ∨ 0 < labels i ∧ labels i ≤ k
  noise : ∀ i, labels i = -1 → ¬core i
  border : ∀ i, 0 < labels i → ¬core i → ∃ j, core j ∧ near i j ∧ labels i = labels j
  joined : ∀ i j, core i → core j → 0 < labels i → labels i = labels j → Joined core near i j
  edge : ∀ i j, core i → 0 < labels i → near i j →
    0 < labels j ∧ (core j → labels j = labels i) ∨ labels i = k ∧ j ∈ seed
  seed : ∀ j ∈ seed, ∃ i, core i ∧ labels i = k ∧ near i j
  used : ∀ c, 0 < c → c ≤ k → ∃ i, core i ∧ labels i = c

variable {core near} {labels : ι → Int} {k c : Int} {i j q : ι} {seed : List ι}

theorem update_of_pos [DecidableEq ι] (hq : labels q ≤ 0) (hj : 0 < labels j) :
    update labels q c j = labels j := by
  refine update_of_ne (fun hjq => ?_) _ _
  subst hjq
  omega

theorem Joined.symm (hsymm : ∀ i j, near i j → near j i) (h : Joined core near i j) :
    Joined core near j i := by
  induction h
  case refl => exact .refl
  case tail hs hi => exact hi.head ⟨hs.right.left, hs.left, hsymm _ _ hs.right.right⟩

namespace Clustered

theorem init : Clustered core near (fun _ => 0) 0 [] where
  count := le_rfl
  range := fun _ => .inl rfl
  noise := nofun
  border := nofun
  joined := nofun
  edge := nofun
  seed := nofun
  used := fun _ hc hle => absurd hc (not_lt.mpr hle)

-- A vector that is not core is noise until it is found to be at a border.
theorem reject [DecidableEq ι] (h : Clustered core near labels k []) (hq : labels q = 0)
    (hcore : ¬core q) : Clustered core near (update labels q (-1)) k [] := by
  have hold {i : ι} (hi : 0 < labels i) : update labels q (-1) i = labels i :=
    update_of_pos hq.le hi
  have hpos {i : ι} (hi : 0 < update labels q (-1) i) : 0 < labels i := by
    by_cases hiq : i = q
    case pos => rw [hiq, update_self] at hi; omega
    case neg => rwa [update_of_ne hiq] at hi
  constructor
  case count => exact h.count
  case range =>
    intro i
    by_cases hi : i = q
    case pos => rw [hi, update_self]; exact .inr (.inl rfl)
    case neg => rw [update_of_ne hi]; exact h.range i
  case noise =>
    intro i hn
    by_cases hi : i = q
    case pos => rwa [hi]
    case neg => exact h.noise i (update_of_ne hi (-1) labels ▸ hn)
  case border =>
    intro i hi hnot
    have ⟨j, hj, hij, hl⟩ := h.border i (hpos hi) hnot
    exact ⟨j, hj, hij, by rw [hold (hpos hi), hold (hl ▸ hpos hi), hl]⟩
  case joined =>
    intro i j hi hj hl he
    have hlj := hpos (he ▸ hl)
    exact h.joined i j hi hj (hpos hl) (by rwa [hold (hpos hl), hold hlj] at he)
  case edge =>
    intro i j hi hl hij
    have ⟨hj, hsame⟩ := (h.edge i j hi (hpos hl) hij).resolve_right (by simp)
    rw [hold (hpos hl), hold hj]
    exact .inl ⟨hj, hsame⟩
  case seed => nofun
  case used =>
    intro c hc hck
    have ⟨i, hi, hic⟩ := h.used c hc hck
    exact ⟨i, hi, (hold (hic ▸ hc)).trans hic⟩

theorem skip (hsymm : ∀ i j, near i j → near j i) (h : Clustered core near labels k (q :: seed))
    (hq : 0 < labels q) : Clustered core near labels k seed := by
  refine { h with
    edge := fun i j hi hpos hij => ?_
    seed := fun j hj => h.seed j (List.mem_cons_of_mem q hj) }
  rcases h.edge i j hi hpos hij with hleft | ⟨hk, hj⟩
  case inl => exact .inl hleft
  case inr =>
    rcases List.mem_cons.mp hj with rfl | hj
    case inr => exact .inr ⟨hk, hj⟩
    case inl =>
      -- A core vector that has a label already has the one of this cluster.
      refine .inl ⟨hq, fun hcore => ?_⟩
      rcases h.edge j i hcore hq (hsymm i j hij) with ⟨_, hsame⟩ | ⟨hkj, _⟩
      case inl => exact (hsame hi).symm
      case inr => exact hkj.trans hk.symm

-- A vector without a label gets one: of the last cluster, as a seed of it, or of a new one. Its
-- neighbors become seeds if it is core.
theorem label [DecidableEq ι] (hsymm : ∀ i j, near i j → near j i)
    (h : Clustered core near labels k seed) (hq : labels q ≤ 0) (hc : 0 < c)
    (hnew : c = k ∧ q ∈ seed ∨ c = k + 1 ∧ core q ∧ seed = [])
    (hsub : ∀ j ∈ seed, j ≠ q → j ∈ l) (hseed : ∀ j ∈ l, j ∈ seed ∨ core q ∧ near q j)
    (hcore : core q → ∀ j, near q j → j = q ∨ j ∈ l) :
    Clustered core near (update labels q c) c l := by
  have hself : update labels q c q = c := update_self ..
  have hne {i : ι} (hi : i ≠ q) : update labels q c i = labels i :=
    update_of_ne hi _ _
  have hold {i : ι} (hi : 0 < labels i) : update labels q c i = labels i :=
    update_of_pos hq hi
  -- Whoever has the label already is in the cluster that the vector is a seed of.
  have hlast {i : ι} (hi : labels i = c) : ∃ p, core p ∧ labels p = c ∧ near p q := by
    rcases hnew with ⟨rfl, hq⟩ | ⟨rfl, _⟩
    case inl => exact h.seed q hq
    case inr =>
      have := h.range i
      omega
  have hsame {j : ι} (hj : j ∈ seed) : c = k := by
    rcases hnew with ⟨hck, _⟩ | ⟨_, _, rfl⟩
    case inl => exact hck
    case inr => simp at hj
  have hto {i : ι} (hi : core i) (hl : labels i = c) (hcq : core q) : Joined core near i q := by
    have ⟨p, hp, hpc, hpq⟩ := hlast hl
    exact (h.joined i p hi hp (hl ▸ hc) (hl.trans hpc.symm)).tail ⟨hp, hcq, hpq⟩
  constructor
  case count => exact hc.le
  case range =>
    intro i
    by_cases hi : i = q
    case pos => rw [hi, hself]; omega
    case neg =>
      rw [hne hi]
      have := h.range i
      omega
  case noise =>
    intro i hn
    by_cases hi : i = q
    case pos => rw [hi, hself] at hn; omega
    case neg => exact h.noise i (hne hi ▸ hn)
  case border =>
    intro i hpos hnot
    by_cases hi : i = q
    case pos =>
      subst hi
      have hi := hnew.resolve_right fun hn => hnot hn.right.left
      have ⟨p, hp, hpk, hpi⟩ := h.seed i hi.right
      rw [← hi.left] at hpk
      exact ⟨p, hp, hsymm p i hpi, by rw [hself, hold (hpk ▸ hc), hpk]⟩
    case neg =>
      rw [hne hi] at hpos ⊢
      have ⟨j, hj, hij, hl⟩ := h.border i hpos hnot
      exact ⟨j, hj, hij, by rw [hold (hl ▸ hpos), hl]⟩
  case joined =>
    intro i j hi hj hpos hl
    by_cases hiq : i = q <;> by_cases hjq : j = q
    case pos => rw [hiq, hjq]; exact .refl
    case neg =>
      subst hiq
      rw [hself, hne hjq] at hl
      exact (hto hj hl.symm hi).symm hsymm
    case pos =>
      subst hjq
      rw [hself, hne hiq] at hl
      exact hto hi hl hj
    case neg =>
      rw [hne hiq, hne hjq] at hl
      exact h.joined i j hi hj (hne hiq ▸ hpos) hl
  case edge =>
    intro i j hi hpos hij
    by_cases hiq : i = q
    case pos =>
      subst hiq
      rcases hcore hi j hij with rfl | hj
      case inl => exact .inl ⟨hpos, fun _ => rfl⟩
      case inr => exact .inr ⟨hself, hj⟩
    case neg =>
      rw [hne hiq] at hpos ⊢
      rcases h.edge i j hi hpos hij with hj | ⟨hik, hj⟩
      case inl => exact .inl (by rwa [hold hj.left])
      case inr =>
        have hic : labels i = c := hik.trans (hsame hj).symm
        by_cases hjq : j = q
        case pos => exact .inl (by rw [hjq, hself]; exact ⟨hc, fun _ => hic.symm⟩)
        case neg => exact .inr ⟨hic, hsub j hj hjq⟩
  case seed =>
    intro j hj
    rcases hseed j hj with hj | ⟨hcq, hqj⟩
    case inr => exact ⟨q, hcq, hself, hqj⟩
    case inl =>
      have ⟨i, hi, hik, hij⟩ := h.seed j hj
      rw [← hsame hj] at hik
      exact ⟨i, hi, (hold (hik ▸ hc)).trans hik, hij⟩
  case used =>
    intro d hd hdc
    by_cases hdk : d ≤ k
    case pos =>
      have ⟨i, hi, hid⟩ := h.used d hd hdk
      exact ⟨i, hi, (hold (hid ▸ hd)).trans hid⟩
    case neg =>
      have hq := hnew.resolve_left fun hck => hdk (hck.left ▸ hdc)
      exact ⟨q, hq.right.left, by omega⟩

end Clustered

end Density

section Loops

variable {n : Nat} {V : Type} (x : Input n V)

def Near (i j : Fin n) : Prop :=
  x.within (x.vectors i) (x.vectors j)

-- The vector is related to at least `minPts` vectors.
def Core (i : Fin n) : Prop :=
  x.minPts ≤ (Finset.univ.filter fun j => x.within (x.vectors i) (x.vectors j)).card

variable {x} {labels : Labels n} {k c : Int} {i j q : Fin n} {seed : List (Fin n)} {fuel : Nat}

theorem mem_rangeQuery : j ∈ rangeQuery x i ↔ Near x i j := by
  simp [rangeQuery, Near]

theorem core_iff : Core x i ↔ x.minPts ≤ (rangeQuery x i).length := by
  have hnodup : (rangeQuery x i).Nodup := (List.nodup_finRange n).filter _
  have hset : (Finset.univ.filter fun j => x.within (x.vectors i) (x.vectors j)) =
      (rangeQuery x i).toFinset := by
    ext j
    simp [rangeQuery]
  rw [Core, hset, List.toFinset_card_of_nodup hnodup]

theorem length_rangeQuery_le : (rangeQuery x i).length ≤ n :=
  (List.length_filter_le _ _).trans (List.length_finRange).le

def unlabelled (labels : Labels n) : Finset (Fin n) :=
  Finset.univ.filter fun i => labels i = 0

theorem unlabelled_update (hc : c ≠ 0) :
    unlabelled (update labels q c) = (unlabelled labels).erase q := by
  ext i
  by_cases hi : i = q <;> simp [unlabelled, hi, hc]

variable (x) in
-- The seeds that a vector adds.
def more (q : Fin n) : List (Fin n) :=
  if x.minPts ≤ (rangeQuery x q).length then rangeQuery x q else []

theorem mem_more : j ∈ more x q ↔ Core x q ∧ Near x q j := by
  rw [core_iff, ← mem_rangeQuery, more]
  split <;> simp [*]

theorem more_of_not_core (h : ¬Core x q) : more x q = [] :=
  if_neg (core_iff.not.mp h)

theorem expand_skip (hq : 0 < labels q) :
    expand x k (fuel + 1) labels (q :: seed) = expand x k fuel labels seed := by
  have hn : labels q ≠ noise := fun hn => by rw [hn, noise] at hq; omega
  have hu : labels q ≠ undefined := hq.ne'
  rw [expand, if_neg hn, if_pos hu]

theorem expand_label (hk : 0 < k) (hq : labels q = undefined ∨ labels q = noise ∧ ¬Core x q) :
    expand x k (fuel + 1) labels (q :: seed) =
      expand x k fuel (update labels q k) (seed ++ more x q) := by
  rcases hq with hq | ⟨hq, hcore⟩
  case inl =>
    have hn : labels q ≠ noise := by rw [hq]; decide
    rw [expand, if_neg hn, if_neg (not_not.mpr hq), more]
    by_cases hm : x.minPts ≤ (rangeQuery x q).length <;> simp [hm]
  case inr =>
    rw [expand, if_pos hq, if_pos, more_of_not_core hcore, List.append_nil]
    rw [update_self]
    exact hk.ne'

variable (x) in
abbrev Stage : Labels n → Int → List (Fin n) → Prop :=
  Clustered (Core x) (Near x)

variable (hsymm : ∀ v w, x.within v w → x.within w v)
include hsymm

theorem expand_clustered (hk : 0 < k) (h : Stage x labels k seed)
    (hf : seed.length + n * (unlabelled labels).card ≤ fuel) :
    Stage x (expand x k fuel labels seed) k [] ∧
    ∀ i, labels i ≠ 0 → expand x k fuel labels seed i ≠ 0 := by
  have hnear : ∀ i j, Near x i j → Near x j i := fun _ _ => hsymm _ _
  induction fuel generalizing labels seed
  case zero =>
    obtain rfl : seed = [] := List.eq_nil_of_length_eq_zero (by omega)
    exact ⟨h, fun _ => id⟩
  case succ fuel hi =>
    cases seed
    case nil => exact ⟨h, fun _ => id⟩
    case cons q seed =>
      rw [List.length_cons] at hf
      by_cases hpos : 0 < labels q
      case pos =>
        rw [expand_skip hpos]
        exact hi (h.skip hnear hpos) (by omega)
      case neg =>
        have hq : labels q = 0 ∨ labels q = -1 ∧ ¬Core x q := by
          rcases h.range q with hq | hq | hq
          case inl => exact .inl hq
          case inr.inl => exact .inr ⟨hq, h.noise q hq⟩
          case inr.inr => exact absurd hq.left hpos
        have hnew := h.label hnear (not_lt.mp hpos) hk (.inl ⟨rfl, List.mem_cons_self⟩)
          (l := seed ++ more x q)
          (fun j hj hne => List.mem_append_left _ ((List.mem_cons.mp hj).resolve_left hne))
          (fun j hj => (List.mem_append.mp hj).imp (.tail q) mem_more.mp)
          fun hc j hj => .inr (List.mem_append_right _ (mem_more.mpr ⟨hc, hj⟩))
        -- A vector that adds seeds has had no label.
        have hfuel : (seed ++ more x q).length +
            n * (unlabelled (update labels q k)).card ≤ fuel := by
          rw [unlabelled_update hk.ne', List.length_append]
          rcases hq with hq | ⟨_, hcore⟩
          case inl =>
            have hcard := Finset.card_erase_add_one (a := q) (s := unlabelled labels)
              (by simp [unlabelled, hq])
            have hlen : (more x q).length ≤ n := by
              unfold more
              split
              case isTrue => exact length_rangeQuery_le
              case isFalse => exact Nat.zero_le n
            rw [← hcard, Nat.mul_add_one] at hf
            omega
          case inr =>
            have hle := Nat.mul_le_mul_left n
              (Finset.card_erase_le (s := unlabelled labels) (a := q))
            rw [more_of_not_core hcore, List.length_nil]
            omega
        have ⟨hrest, hkeep⟩ := hi hnew hfuel
        rw [expand_label hk hq]
        refine ⟨hrest, fun i hl => hkeep i ?_⟩
        by_cases hiq : i = q
        case pos => rw [hiq, update_self]; exact hk.ne'
        case neg => rwa [update_of_ne hiq]

theorem visit_clustered (h : Stage x labels k []) :
    Stage x (visit x (labels, k) i).fst (visit x (labels, k) i).snd [] ∧
    ∀ j, labels j ≠ 0 ∨ j = i → (visit x (labels, k) i).fst j ≠ 0 := by
  unfold visit
  dsimp only
  split
  case isTrue hi => exact ⟨h, fun j hj => hj.elim id fun hji => hji ▸ hi⟩
  case isFalse hi =>
    have hi : labels i = 0 := not_not.mp hi
    have hset {c : Int} (hc : c ≠ 0) (j : Fin n) (hj : labels j ≠ 0 ∨ j = i) :
        update labels i c j ≠ 0 := by
      by_cases hji : j = i
      case pos => rwa [hji, update_self]
      case neg => rw [update_of_ne hji]; exact hj.resolve_right hji
    split
    case isTrue hcore => exact ⟨h.reject hi (core_iff.not.mpr (not_le.mpr hcore)), hset (by decide)⟩
    case isFalse hcore =>
      have hcore : Core x i := core_iff.mpr (not_lt.mp hcore)
      have hk : 0 < k + 1 := by have := h.count; omega
      have hnew := h.label (fun _ _ => hsymm _ _) hi.le hk (.inr ⟨rfl, hcore, rfl⟩)
        (l := (rangeQuery x i).filter (· ≠ i)) nofun
        (fun j hj => .inr ⟨hcore, mem_rangeQuery.mp (List.mem_filter.mp hj).left⟩)
        fun _ j hj => or_iff_not_imp_left.mpr fun hne =>
          List.mem_filter.mpr ⟨mem_rangeQuery.mpr hj, decide_eq_true hne⟩
      have hlen := (List.length_filter_le (· ≠ i) (rangeQuery x i)).trans length_rangeQuery_le
      have hcard := Nat.mul_le_mul_left n
        (Finset.card_le_univ (unlabelled (update labels i (k + 1))))
      rw [Fintype.card_fin] at hcard
      have ⟨hrest, hkeep⟩ := expand_clustered hsymm hk hnew (Nat.add_le_add hlen hcard)
      exact ⟨hrest, fun j hj => hkeep j (hset hk.ne' j hj)⟩

theorem foldl_clustered (l : List (Fin n)) (h : Stage x labels k []) :
    ∃ labels' k', l.foldl (visit x) (labels, k) = (labels', k') ∧ Stage x labels' k' [] ∧
      ∀ j, labels j ≠ 0 ∨ j ∈ l → labels' j ≠ 0 := by
  induction l generalizing labels k
  case nil => exact ⟨labels, k, rfl, h, fun j hj => hj.resolve_right List.not_mem_nil⟩
  case cons i l hi =>
    have ⟨hnext, hkeep⟩ := visit_clustered hsymm (i := i) h
    have ⟨labels', k', hl, hlast, hall⟩ := hi hnext
    refine ⟨labels', k', hl, hlast, fun j hj => hall j ?_⟩
    rw [List.mem_cons, ← or_assoc] at hj
    exact hj.imp_left (hkeep j)

end Loops

-- Three vectors in a row, which the one in the middle joins, and one that is far away.
def row : Input 4 Nat where
  vectors := ![3, 1, 2, 9]
  within v w := v ≤ w + 1 ∧ w ≤ v + 1
  minPts := 2

end GizClaw.VecID

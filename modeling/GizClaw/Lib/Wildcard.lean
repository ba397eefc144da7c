import Mathlib

-- Patterns of segments with wildcards, and which of several patterns for a path comes first.

namespace Wildcard

inductive Segment (α : Type) where
  | literal (a : α)
  | any
  | all
  deriving DecidableEq

variable {α : Type}

-- Where `all` may stand.
def Valid : List (Segment α) → Bool
  | [] => true
  | .all :: p => p.isEmpty
  | _ :: p => Valid p

def Segment.rank : Segment α → Nat
  | .literal _ => 0
  | .any => 1
  | .all => 2

-- At the first segment of another kind, literals come before `any` and `any` before `all`.
def Preferred (p p' : List (Segment α)) : Prop :=
  p.map Segment.rank < p'.map Segment.rank

variable {p p' : List (Segment α)}

theorem Preferred.cons (s : Segment α) (h : Preferred p p') : Preferred (s :: p) (s :: p') :=
  List.cons_lt_cons_iff.mpr (.inr ⟨rfl, h⟩)

theorem preferred_of_rank (h : s.rank < s'.rank) : Preferred (s :: p) (s' :: p') :=
  List.cons_lt_cons_iff.mpr (.inl h)

variable [DecidableEq α]

-- `all` stands for one or more segments at the end of a path.
def Matches : List (Segment α) → List α → Bool
  | [], [] => true
  | .literal a :: p, b :: q => a = b && Matches p q
  | .any :: p, _ :: q => Matches p q
  | [.all], _ :: _ => true
  | _, _ => false

structure First (stored : List (Segment α) → Prop) (q : List α) (p : List (Segment α)) :
    Prop where
  holds : stored p
  fits : Matches p q
  preferred : ∀ p', stored p' → Matches p' q → p' = p ∨ Preferred p p'

def Unmatched (stored : List (Segment α) → Prop) (q : List α) : Prop :=
  ∀ p, stored p → ¬Matches p q

variable {stored : List (Segment α) → Prop} {q : List α} {a : α}

theorem matches_nil : Matches p [] ↔ p = [] := by
  cases p
  case nil => simp [Matches]
  case cons s p => cases s <;> simp [Matches]

-- A pattern for a path with a first segment begins with this segment or with a wildcard.
theorem matches_cons (h : Matches p (a :: q)) :
    (∃ p', p = .literal a :: p' ∧ Matches p' q) ∨ (∃ p', p = .any :: p' ∧ Matches p' q) ∨
      p = [.all] := by
  cases p
  case nil => cases h
  case cons s p =>
    cases s
    case literal =>
      simp only [Matches, Bool.and_eq_true, decide_eq_true_eq] at h
      exact .inl ⟨p, by rw [h.left], h.right⟩
    case any => exact .inr (.inl ⟨p, rfl, h⟩)
    case all =>
      cases p
      case nil => exact .inr (.inr rfl)
      case cons => cases h

section First

theorem First.nil (h : stored []) : First stored [] [] :=
  ⟨h, rfl, fun _ _ hm => .inl (matches_nil.mp hm)⟩

theorem Unmatched.nil (h : ¬stored []) : Unmatched stored ([] : List α) :=
  fun _ hs hm => h (matches_nil.mp hm ▸ hs)

theorem First.literal (h : First (fun p => stored (.literal a :: p)) q p) :
    First stored (a :: q) (.literal a :: p) := by
  refine ⟨h.holds, by simp [Matches, h.fits], fun p' hs hm => ?_⟩
  rcases matches_cons hm with ⟨r, rfl, hr⟩ | ⟨r, rfl, _⟩ | rfl
  · exact (h.preferred r hs hr).imp (congrArg _) (.cons _)
  · exact .inr (preferred_of_rank Nat.zero_lt_one)
  · exact .inr (preferred_of_rank Nat.zero_lt_two)

section

variable (hl : Unmatched (fun p => stored (.literal a :: p)) q)
include hl

theorem First.any
    (h : First (fun p => stored (.any :: p)) q p) : First stored (a :: q) (.any :: p) := by
  refine ⟨h.holds, h.fits, fun p' hs hm => ?_⟩
  rcases matches_cons hm with ⟨r, rfl, hr⟩ | ⟨r, rfl, hr⟩ | rfl
  · exact absurd hr (hl r hs)
  · exact (h.preferred r hs hr).imp (congrArg _) (.cons _)
  · exact .inr (preferred_of_rank Nat.one_lt_two)

theorem First.all (ha : Unmatched (fun p => stored (.any :: p)) q) (h : stored [.all]) :
    First stored (a :: q) [.all] := by
  refine ⟨h, rfl, fun p' hs hm => ?_⟩
  rcases matches_cons hm with ⟨r, rfl, hr⟩ | ⟨r, rfl, hr⟩ | rfl
  · exact absurd hr (hl r hs)
  · exact absurd hr (ha r hs)
  · exact .inl rfl

theorem Unmatched.cons (ha : Unmatched (fun p => stored (.any :: p)) q) (h : ¬stored [.all]) :
    Unmatched stored (a :: q) := by
  intro p hs hm
  rcases matches_cons hm with ⟨r, rfl, hr⟩ | ⟨r, rfl, hr⟩ | rfl
  · exact hl r hs hr
  · exact ha r hs hr
  · exact h hs

end

theorem First.unique (h : First stored q p) (h' : First stored q p') : p = p' := by
  rcases h.preferred p' h'.holds h'.fits with he | hlt
  · exact he.symm
  · rcases h'.preferred p h.holds h.fits with he | hgt
    · exact he
    · exact absurd hgt (List.lt_asymm hlt)

end First

end Wildcard

import Mathlib

-- Deterministic machines that answer each input, and simulations between them.

namespace Machine

variable {ι ω σ τ : Type}

-- The answers of a run, in order, and the state that it ends in.
def run (step : ι → σ → ω × σ) : List ι → σ → List ω × σ
  | [], s => ([], s)
  | i :: is, s =>
    let rest := run step is (step i s).snd
    ((step i s).fst :: rest.fst, rest.snd)

-- Two machines that answer alike from related states, and stay related, answer alike forever.
theorem run_simulates (step₁ : ι → σ → ω × σ) (step₂ : ι → τ → ω × τ) {R : σ → τ → Prop}
    {p : ι → Prop} (hr : R s t) (hp : ∀ i ∈ is, p i)
    (hs : ∀ i s t, p i → R s t →
      (step₁ i s).fst = (step₂ i t).fst ∧ R (step₁ i s).snd (step₂ i t).snd) :
    (run step₁ is s).fst = (run step₂ is t).fst ∧ R (run step₁ is s).snd (run step₂ is t).snd := by
  induction is generalizing s t
  case nil => exact ⟨rfl, hr⟩
  case cons i is hi =>
    simp only [List.mem_cons, forall_eq_or_imp] at hp
    have ⟨ha, hr⟩ := hs i s t hp.left hr
    have ⟨has, hr⟩ := hi hr hp.right
    exact ⟨by simp [run, ha, has], hr⟩

theorem run_invariant {step : ι → σ → ω × σ} {P : σ → Prop} (is : List ι) (h : P s)
    (hs : ∀ i s, P s → P (step i s).snd) : P (run step is s).snd := by
  induction is generalizing s
  case nil => exact h
  case cons i is hi => exact hi (hs i s h)

section Timed

variable {T : Type} [Preorder T]

-- The state after a run of a machine without answers.
def fold (step : ι → σ → σ) (is : List ι) (s : σ) : σ :=
  is.foldl (fun s i => step i s) s

-- Two machines with the same inputs.
def both (f : ι → σ → σ) (g : ι → τ → τ) (i : ι) (s : σ × τ) : σ × τ :=
  (f i s.fst, g i s.snd)

theorem fold_both (f : ι → σ → σ) (g : ι → τ → τ) (is : List ι) (s : σ) (t : τ) :
    fold (both f g) is (s, t) = (fold f is s, fold g is t) := by
  induction is generalizing s t
  case nil => rfl
  case cons i is hi => exact hi (f i s) (g i t)

-- Inputs carry the time at which they arrive.
def Ordered (time : ι → T) (is : List ι) : Prop :=
  is.Pairwise fun i j => time i ≤ time j

variable (step : ι → σ → σ) {time : ι → T} {P : T → σ → Prop} {p : ι → Prop} {s : σ}
variable {is : List ι} {t : T}

variable (hs : ∀ i s, p i → P (time i) s → P (time i) (step i s))
  (hm : ∀ t t' s, t ≤ t' → P t s → P t' s)
include hs hm

theorem fold_from (h : P t₀ s) (ho : Ordered time is) (hp : ∀ i ∈ is, p i)
    (h₀ : ∀ i ∈ is, t₀ ≤ time i) (ht : ∀ i ∈ is, time i ≤ t) (hl : t₀ ≤ t) :
    P t (fold step is s) := by
  induction is generalizing s t₀
  case nil => exact hm _ _ _ hl h
  case cons i is hi =>
    simp only [List.mem_cons, forall_eq_or_imp] at h₀ hp ht
    have ⟨hle, ho⟩ := List.pairwise_cons.mp ho
    exact hi (hs i s hp.left (hm _ _ _ h₀.left h)) ho hp.right hle ht.right ht.left

-- What an input at a given time preserves, and what lasts over time, holds after every run.
theorem fold_timed (h : ∀ t, P t s) (ho : Ordered time is) (hp : ∀ i ∈ is, p i)
    (ht : ∀ i ∈ is, time i ≤ t) : P t (fold step is s) := by
  cases is
  case nil => exact h t
  case cons i is =>
    refine fold_from step hs hm (h (time i)) ho hp ?_ ht (ht i (by simp))
    simp only [List.mem_cons, forall_eq_or_imp, le_refl, true_and]
    exact (List.pairwise_cons.mp ho).left

end Timed

end Machine

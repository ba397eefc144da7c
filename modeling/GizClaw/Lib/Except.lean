import Mathlib

-- Fallible computations, taken apart along their binds and compared step by step.

namespace Except

variable {ε α β γ δ : Type}
variable {x : Except ε α} {f : α → Except ε β} {l : List α} {r : List β}

theorem bind_eq_ok : x >>= f = .ok b ↔ ∃ a, x = .ok a ∧ f a = .ok b := by
  cases x <;> simp [bind, Except.bind]

theorem bind_eq_error : x >>= f = .error e ↔ x = .error e ∨ ∃ a, x = .ok a ∧ f a = .error e := by
  cases x <;> simp [bind, Except.bind]

@[simp]
theorem bind_ok (a : α) (f : α → Except ε β) : (.ok a : Except ε α) >>= f = f a :=
  rfl

-- A check that lets the computation go on.
theorem ite_error_eq_ok {p : Prop} [Decidable p] :
    (if p then .error e else x) = .ok a ↔ ¬p ∧ x = .ok a := by
  split <;> simp [*]

theorem mapM_eq_ok : l.mapM f = .ok r ↔ List.Forall₂ (fun a b => f a = .ok b) l r := by
  induction l generalizing r
  case nil =>
    rw [List.mapM_nil, List.forall₂_nil_left_iff]
    exact ⟨fun h => by cases h; rfl, fun h => by rw [h]; rfl⟩
  case cons hi =>
    rw [List.mapM_cons, List.forall₂_cons_left_iff, bind_eq_ok]
    constructor
    case mp =>
      rintro ⟨b, hb, h⟩
      have ⟨r', hr', h⟩ := bind_eq_ok.mp h
      cases h
      exact ⟨b, r', hb, hi.mp hr', rfl⟩
    case mpr =>
      rintro ⟨b, r', hb, hr', rfl⟩
      exact ⟨b, hb, bind_eq_ok.mpr ⟨r', hi.mpr hr', rfl⟩⟩

theorem exists_of_mem_mapM (h : l.mapM f = .ok r) (hb : b ∈ r) : ∃ a ∈ l, f a = .ok b := by
  rw [mapM_eq_ok] at h
  induction h
  case nil => simp at hb
  case cons ha _ hi =>
    rcases List.mem_cons.mp hb with rfl | hb
    case inl => exact ⟨_, List.mem_cons_self, ha⟩
    case inr =>
      have ⟨a, hm, ha⟩ := hi hb
      exact ⟨a, List.mem_cons_of_mem _ hm, ha⟩

theorem exists_mapM_eq_ok (h : ∀ a ∈ l, ∃ b, f a = .ok b) : ∃ r, l.mapM f = .ok r := by
  induction l
  case nil => exact ⟨[], rfl⟩
  case cons a l hi =>
    have ⟨b, hb⟩ := h a List.mem_cons_self
    have ⟨r, hr⟩ := hi fun c hc => h c (List.mem_cons_of_mem a hc)
    exact ⟨b :: r, by rw [List.mapM_cons, hb, bind_ok, hr, bind_ok]; rfl⟩

theorem exists_mem_of_mem_mapM (h : l.mapM f = .ok r) (ha : a ∈ l) : ∃ b ∈ r, f a = .ok b := by
  rw [mapM_eq_ok] at h
  induction h
  case nil => simp at ha
  case cons hb _ hi =>
    rcases List.mem_cons.mp ha with rfl | ha
    case inl => exact ⟨_, List.mem_cons_self, hb⟩
    case inr =>
      have ⟨b, hm, hb⟩ := hi ha
      exact ⟨b, List.mem_cons_of_mem _ hm, hb⟩

theorem nodup_of_mapM (h : l.mapM f = .ok r) (hd : l.Nodup)
    (hf : ∀ a ∈ l, ∀ b ∈ l, ∀ c, f a = .ok c → f b = .ok c → a = b) : r.Nodup := by
  induction l generalizing r
  case nil => cases h; exact List.nodup_nil
  case cons a l hi =>
    rw [List.mapM_cons, bind_eq_ok] at h
    have ⟨b, hb, h⟩ := h
    have ⟨r', hr', h⟩ := bind_eq_ok.mp h
    cases h
    have ⟨hal, hd⟩ := List.nodup_cons.mp hd
    refine List.nodup_cons.mpr ⟨fun hm => hal ?_, hi hr' hd fun c hc d hd =>
      hf c (List.mem_cons_of_mem a hc) d (List.mem_cons_of_mem a hd)⟩
    have ⟨c, hc, hfc⟩ := exists_of_mem_mapM hr' hm
    rw [hf a List.mem_cons_self c (List.mem_cons_of_mem a hc) b hb hfc]
    exact hc

theorem mapM_eq_ok_map (h : ∀ a ∈ l, f a = .ok (g a)) : l.mapM f = .ok (l.map g) := by
  rw [mapM_eq_ok, List.forall₂_map_right_iff, List.forall₂_same]
  exact h

theorem forM_eq_ok {f : α → Except ε Unit} (h : ∀ a ∈ l, f a = .ok ()) : l.forM f = .ok () := by
  induction l
  case nil => rfl
  case cons a l hi =>
    change (f a >>= fun _ => l.forM f) = _
    rw [h a List.mem_cons_self, bind_ok]
    exact hi fun b hb => h b (List.mem_cons_of_mem a hb)

-- Both computations fail with the same error, or both succeed with related values.
inductive Rel (R : α → β → Prop) : Except ε α → Except ε β → Prop
  | error (e : ε) : Rel R (.error e) (.error e)
  | ok {a : α} {b : β} (h : R a b) : Rel R (.ok a) (.ok b)

namespace Rel

variable {R : α → β → Prop} {S : γ → δ → Prop}

theorem bind {f : α → Except ε γ} (h : Rel R x y)
    (hs : ∀ a b, R a b → Rel S (f a) (g b)) : Rel S (x >>= f) (y >>= g) := by
  cases h
  case error e => exact .error e
  case ok h => exact hs _ _ h

theorem map {f : α → γ} (h : Rel R x y)
    (hs : ∀ a b, R a b → S (f a) (g b)) : Rel S (f <$> x) (g <$> y) := by
  cases h
  case error e => exact .error e
  case ok h => exact .ok (hs _ _ h)

theorem mono_ok (h : Rel R x y) (hs : ∀ a b, y = .ok b → R a b → R' a b) : Rel R' x y := by
  cases h
  case error e => exact .error e
  case ok h => exact .ok (hs _ _ rfl h)

theorem mono (h : Rel R x y) (hs : ∀ a b, R a b → R' a b) : Rel R' x y :=
  h.mono_ok fun a b _ => hs a b

theorem trans {S : β → γ → Prop} (h₁ : Rel R x y) (h₂ : Rel S y z)
    (hs : ∀ a b c, R a b → S b c → T a c) : Rel T x z := by
  cases h₁
  case error e => cases h₂; exact .error e
  case ok h₁ =>
    cases h₂
    case ok h₂ => exact .ok (hs _ _ _ h₁ h₂)

theorem of_eq (h : x = y) : Rel Eq x y := by
  subst h
  cases x
  case error e => exact .error e
  case ok => exact .ok rfl

theorem eq_error (h : Rel R x (.error e)) : x = .error e := by
  cases h
  rfl

theorem exists_of_ok (h : Rel R x (.ok b)) : ∃ a, x = .ok a ∧ R a b := by
  cases h
  case ok h => exact ⟨_, rfl, h⟩

-- The right side is a check before a fixed value.
theorem bind_check {c : Except ε Unit} {f : α → Except ε γ} (h : Rel R x (c >>= fun _ => .ok b))
    (hs : ∀ a, R a b → Rel S (f a) y) : Rel S (x >>= f) (c >>= fun _ => y) := by
  cases c
  case error e => rw [h.eq_error]; exact .error e
  case ok =>
    have ⟨a, ha, hr⟩ := h.exists_of_ok
    rw [ha]
    exact hs a hr

theorem ite {p : Prop} [Decidable p] (h₁ : p → Rel R x₁ y₁) (h₂ : ¬p → Rel R x₂ y₂) :
    Rel R (if p then x₁ else x₂) (if p then y₁ else y₂) := by
  split
  case isTrue h => exact h₁ h
  case isFalse h => exact h₂ h

end Rel
end Except

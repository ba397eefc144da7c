import GizClaw.Lib.Interleaving

-- Programs that run with nobody else around.

namespace Interleaving.Program

variable {A : Type} {R : A → Type} {α β σ : Type} (exec : Exec A R σ)

-- What holds of the last state and the result, however the actions turn out.
def Post (Q : σ → α → Prop) : σ → Program A R α → Prop
  | s, .pure a => Q s a
  | s, .act a next => ∀ r s', exec a s r s' → Post Q s' (next r)

-- What may hold of them.
def May (Q : σ → α → Prop) : σ → Program A R α → Prop
  | s, .pure a => Q s a
  | s, .act a next => ∃ r s', exec a s r s' ∧ May Q s' (next r)

variable {exec} {Q Q' : σ → α → Prop} {s : σ}

theorem Post.bind (h : Post exec Q s p) (hf : ∀ s a, Q s a → Post exec P s (f a)) :
    Post exec P s (p >>= f) := by
  induction p generalizing s
  case pure a => exact hf s a h
  case act hi => exact fun r s' he => hi r (h r s' he)

theorem Post.mono (h : Post exec Q s p) (hq : ∀ s a, Q s a → Q' s a) : Post exec Q' s p :=
  p.bind_pure ▸ h.bind hq

theorem May.bind (h : May exec Q s p)
    (hf : ∀ s a, Q s a → May exec P s (f a)) : May exec P s (p >>= f) := by
  induction p generalizing s
  case pure a => exact hf s a h
  case act hi =>
    have ⟨r, s', he, h⟩ := h
    exact ⟨r, s', he, hi r h⟩

theorem May.post (h : May exec Q s p) (hp : Post exec Q' s p) : ∃ s a, Q s a ∧ Q' s a := by
  induction p generalizing s
  case pure a => exact ⟨s, a, h, hp⟩
  case act hi =>
    have ⟨r, s', he, h⟩ := h
    exact hi r h (hp r s' he)

theorem May.not_post (h : May exec (fun s a => ¬Q s a) s p) : ¬Post exec Q s p :=
  fun hp => have ⟨_, _, hn, hq⟩ := h.post hp; hn hq

-- A run in which every action turns out one way.
def play (perform : (a : A) → σ → Option (R a × σ)) : σ → Program A R α → Option (σ × α)
  | s, .pure a => some (s, a)
  | s, .act a next => (perform a s).bind fun (r, s) => play perform s (next r)

theorem May.of_play {perform : (a : A) → σ → Option (R a × σ)} {I : σ → Prop} {f : σ → α → β}
    (hperform : ∀ a s r s', I s → perform a s = some (r, s') → exec a s r s' ∧ I s') (hs : I s)
    (h : (play perform s p).map f.uncurry = some b) : May exec (fun s a => f s a = b) s p := by
  induction p generalizing s
  case pure => exact Option.some.inj h
  case act a next hi =>
    rw [play, Option.map_bind] at h
    have ⟨(r, s'), hr, h⟩ := Option.bind_eq_some_iff.mp h
    have ⟨he, hs⟩ := hperform a s r s' hs hr
    exact ⟨r, s', he, hi r hs h⟩

-- A program whose actions all keep the invariant.
theorem Post.of_all {I : σ → Prop} (h : p.All D) (hs : I s)
    (hstep : ∀ a s r s', D a → I s → exec a s r s' → I s') : Post exec (fun s _ => I s) s p := by
  induction p generalizing s
  case pure => exact hs
  case act a next hi => exact fun r s' he => hi r (h.right r) (hstep a s r s' h.left hs he)

end Interleaving.Program

namespace Interleaving

variable {A : Type} {R : A → Type} {α β ε σ : Type} (exec : Exec A R σ)

-- The program succeeds.
def PostOk (Q : σ → α → Prop) (s : σ) (x : ExceptT ε (Program A R) α) : Prop :=
  x.run.Post exec (fun s r => ∃ a, r = .ok a ∧ Q s a) s

namespace PostOk

variable {exec} {Q : σ → α → Prop} {s : σ} {x : ExceptT ε (Program A R) α}

theorem pure (h : Q s a) : PostOk exec Q s (Pure.pure a : ExceptT ε (Program A R) α) :=
  ⟨a, rfl, h⟩

theorem lift {y : Except ε α} (h : ∃ a, y = .ok a ∧ Q s a) :
    PostOk exec Q s (liftM y : ExceptT ε (Program A R) α) :=
  h

-- What comes after a program that succeeds.
theorem bindPost {f : α → ExceptT ε (Program A R) β} (h : PostOk exec Q s x)
    (hf : ∀ s a, Q s a → (f a).run.Post exec P s) : (x >>= f).run.Post exec P s := by
  refine Program.Post.bind h fun s r ⟨a, hr, hq⟩ => ?_
  subst hr
  exact hf s a hq

theorem bind {f : α → ExceptT ε (Program A R) β} (h : PostOk exec Q s x)
    (hf : ∀ s a, Q s a → PostOk exec P s (f a)) : PostOk exec P s (x >>= f) :=
  h.bindPost hf

theorem tryCatch (h : PostOk exec Q s x) : PostOk exec Q s (tryCatch x f) := by
  refine Program.Post.bind h fun s r ⟨a, hr, hq⟩ => ?_
  subst hr
  exact ⟨a, rfl, hq⟩

end PostOk

end Interleaving

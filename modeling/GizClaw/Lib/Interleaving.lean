import Mathlib

-- Programs that act on a shared state, one atomic action at a time. Any number of them take turns,
-- and each of them may stop for good between two of its actions.

namespace Interleaving

open Function (update update_self)

inductive Program (A : Type) (R : A → Type) (α : Type) : Type
  | pure (a : α)
  | act (a : A) (next : R a → Program A R α)

namespace Program

variable {A : Type} {R : A → Type} {α β : Type}

def bind (p : Program A R α) (f : α → Program A R β) : Program A R β :=
  match p with
  | pure a => f a
  | act a next => act a fun r => (next r).bind f

instance : Monad (Program A R) where
  pure := pure
  bind := bind

-- A single action, with its reply as the result.
def perform (a : A) : Program A R (R a) :=
  act a pure

-- The result when every action gets the reply that is given for it.
def eval (reply : (a : A) → R a) : Program A R α → α
  | pure a => a
  | act a next => (next (reply a)).eval reply

theorem eval_bind (reply : (a : A) → R a) (p : Program A R α) (f : α → Program A R β) :
    (p.bind f).eval reply = (f (p.eval reply)).eval reply := by
  induction p
  case pure => rfl
  case act a next hi => exact hi (reply a)

theorem bind_pure (p : Program A R α) : p >>= pure = p := by
  induction p
  case pure => rfl
  case act a next hi => exact congrArg (act a) (funext hi)

end Program

-- The replies that an action may get, and the states that it may leave behind.
abbrev Exec (A : Type) (R : A → Type) (σ : Type) :=
  (a : A) → σ → R a → σ → Prop

structure Config (A : Type) (R : A → Type) (α σ : Type) where
  shared : σ
  programs : Nat → Option (Program A R α)

section Runs

variable {A : Type} {R : A → Type} {α σ ι : Type}

def Config.init (s : σ) : Config A R α σ where
  shared := s
  programs := fun _ => none

-- A call takes the place of a program that is done or has stopped.
inductive Step (exec : Exec A R σ) (program : ι → Program A R α) :
    Config A R α σ → Config A R α σ → Prop
  | call {c : Config A R α σ} (i : Nat) (op : ι) :
    Step exec program c { c with programs := update c.programs i (some (program op)) }
  | act {c : Config A R α σ} (i : Nat) {a : A} {next : R a → Program A R α} {r : R a} {s : σ}
    (hp : c.programs i = some (.act a next)) (he : exec a c.shared r s) :
    Step exec program c ⟨s, update c.programs i (some (next r))⟩

inductive Reachable (exec : Exec A R σ) (program : ι → Program A R α) (s₀ : σ) :
    Config A R α σ → Prop
  | init : Reachable exec program s₀ (.init s₀)
  | step {c c' : Config A R α σ} (hr : Reachable exec program s₀ c) (hs : Step exec program c c') :
    Reachable exec program s₀ c'

variable {exec exec' : Exec A R σ} {program : ι → Program A R α} {s₀ : σ} {c c' : Config A R α σ}

-- Where actions may do more, everything that could happen still can.
theorem Step.mono (h : ∀ a s r s', exec a s r s' → exec' a s r s') (hs : Step exec program c c') :
    Step exec' program c c' := by
  cases hs
  case call i op => exact .call i op
  case act i a next r s hp he => exact .act i hp (h a _ r s he)

theorem Reachable.mono (h : ∀ a s r s', exec a s r s' → exec' a s r s')
    (hr : Reachable exec program s₀ c) : Reachable exec' program s₀ c := by
  induction hr
  case init => exact .init
  case step hs hi => exact hi.step (hs.mono h)

-- What is in the places after one of them has changed.
theorem update_eq_some {β : Type} {f : Nat → Option β} {b d : β}
    (h : update f i (some b) j = some d) : (j = i ∧ d = b) ∨ (j ≠ i ∧ f j = some d) := by
  by_cases hj : j = i
  case pos =>
    subst hj
    exact .inl ⟨rfl, Option.some.inj (h.symm.trans (update_self ..))⟩
  case neg => exact .inr ⟨hj, (Function.update_of_ne hj _ _).symm.trans h⟩

end Runs

section Schedules

variable {A : Type} {R : A → Type} {α σ ι χ β : Type}

-- One step of a given program. The choice settles what the action leaves open.
inductive Turn (ι χ : Type) where
  | call (i : Nat) (op : ι)
  | act (i : Nat) (choice : χ)

variable (perform : χ → (a : A) → σ → Option (R a × σ)) (program : ι → Program A R α)

def Config.turn (c : Config A R α σ) : Turn ι χ → Option (Config A R α σ)
  | .call i op => some { c with programs := update c.programs i (some (program op)) }
  | .act i choice =>
    match c.programs i with
    | some (.act a next) => (perform choice a c.shared).map fun (r, s) =>
      ⟨s, update c.programs i (some (next r))⟩
    | _ => none

def Config.run (c : Config A R α σ) (turns : List (Turn ι χ)) : Option (Config A R α σ) :=
  turns.foldlM (Config.turn perform program) c

variable {perform program} {exec : Exec A R σ} {c c' : Config A R α σ} {s₀ : σ}

variable (hp : ∀ ch a s r s', perform ch a s = some (r, s') → exec a s r s')
include hp

theorem Config.step_of_turn {turn : Turn ι χ}
    (h : c.turn perform program turn = some c') : Step exec program c c' := by
  cases turn
  case call i op => cases h; exact .call i op
  case act i choice =>
    simp only [Config.turn] at h
    split at h
    case h_1 hi =>
      have ⟨⟨r, s⟩, hr, hc⟩ := Option.map_eq_some_iff.mp h
      subst hc
      exact .act i hi (hp _ _ _ _ _ hr)
    case h_2 => contradiction

-- What a schedule computes is reachable.
theorem Reachable.run {turns : List (Turn ι χ)} (h : Reachable exec program s₀ c)
    (hr : c.run perform program turns = some c') : Reachable exec program s₀ c' := by
  induction turns generalizing c
  case nil => cases hr; exact h
  case cons hi =>
    have ⟨c₁, h₁, hr⟩ := Option.bind_eq_some_iff.mp hr
    exact hi (h.step (Config.step_of_turn hp h₁)) hr

theorem Reachable.exists_run (hr : ((Config.init s₀).run perform program t).map f = some b) :
    ∃ c, Reachable exec program s₀ c ∧ f c = b := by
  have ⟨c, hc, hf⟩ := Option.map_eq_some_iff.mp hr
  exact ⟨c, Reachable.init.run hp hc, hf⟩

end Schedules

-- Nothing is said about the state or the result.
abbrev Any {σ α : Type} (_ : σ) (_ : α) : Prop :=
  True

section Safety

variable {A : Type} {R : A → Type} {α β σ ι : Type} (exec : Exec A R σ)
variable (Inv : σ → Prop) (Next : σ → σ → Prop)

-- Whenever the others have moved the state along `Next` and kept the invariant, the next action of
-- the program does so as well. `Q` is about the result and the state that the program ends in.
def Safe (Q : σ → α → Prop) : σ → Program A R α → Prop
  | s, .pure a => Q s a
  | s, .act a next => ∀ s₁, Next s s₁ → Inv s₁ → ∀ r s₂, exec a s₁ r s₂ →
      Inv s₂ ∧ Next s₁ s₂ ∧ Safe Q s₂ (next r)

variable {exec Inv Next} {Q Q' : σ → α → Prop} {s s' : σ}
variable {p : Program A R α}

theorem Safe.bind (h : Safe exec Inv Next Q s p)
    (hf : ∀ s a, Q s a → Safe exec Inv Next P s (f a)) : Safe exec Inv Next P s (p >>= f) := by
  induction p generalizing s
  case pure a => exact hf s a h
  case act hi =>
    intro s₁ hn hv r s₂ he
    have ⟨hv, hn, h⟩ := h s₁ hn hv r s₂ he
    exact ⟨hv, hn, hi r h⟩

theorem Safe.mono (h : Safe exec Inv Next Q s p) (hq : ∀ s a, Q s a → Q' s a) :
    Safe exec Inv Next Q' s p :=
  p.bind_pure ▸ h.bind hq

-- A fact that nobody undoes.
structure Stable (Next : σ → σ → Prop) (K : σ → Prop) : Prop where
  later : ∀ {s s'}, K s → Next s s' → K s'

theorem Stable.and (h : Stable Next K) (h' : Stable Next K') : Stable Next fun s => K s ∧ K' s :=
  ⟨fun hk hn => ⟨h.later hk.left hn, h'.later hk.right hn⟩⟩

-- What others do does not hurt a program that is safe.
theorem Safe.later (h : Safe exec Inv Next Q s p) (hn : Next s s')
    (ht : ∀ {a b c}, Next a b → Next b c → Next a c) (hq : ∀ a, Stable Next (Q · a)) :
    Safe exec Inv Next Q s' p := by
  cases p
  case pure a => exact (hq a).later h hn
  case act => exact fun s₁ hn' => h s₁ (ht hn hn')

theorem Safe.keep (h : Safe exec Inv Next Q s p) (hK : Stable Next K) (hk : K s) :
    Safe exec Inv Next (fun s a => K s ∧ Q s a) s p := by
  induction p generalizing s
  case pure => exact ⟨hk, h⟩
  case act hi =>
    intro s₁ hn hv r s₂ he
    have ⟨hv, hn', h⟩ := h s₁ hn hv r s₂ he
    exact ⟨hv, hn', hi r h (hK.later (hK.later hk hn) hn')⟩

-- The invariant holds, and so far every program has been safe.
structure Config.Sound (exec : Exec A R σ) (Inv : σ → Prop) (Next : σ → σ → Prop)
    (c : Config A R α σ) : Prop where
  inv : Inv c.shared
  safe : ∀ i p, c.programs i = some p → Safe exec Inv Next (fun _ _ => True) c.shared p

section Sound

variable {program : ι → Program A R α} {s₀ : σ} {c c' : Config A R α σ}
variable (hrefl : ∀ s, Next s s) (htrans : ∀ {a b c}, Next a b → Next b c → Next a c)
variable (hs : ∀ op s, Inv s → Safe exec Inv Next (fun _ _ => True) s (program op))

include hrefl htrans

-- One step, for whatever the programs promise about their results for good.
theorem Step.safe {Q : σ → α → Prop} (hq : ∀ a, Stable Next (Q · a))
    (hop : ∀ op s, Inv s → Safe exec Inv Next Q s (program op)) (hinv : Inv c.shared)
    (h : ∀ i p, c.programs i = some p → Safe exec Inv Next Q c.shared p)
    (hstep : Step exec program c c') : Inv c'.shared ∧ Next c.shared c'.shared ∧
      ∀ i p, c'.programs i = some p → Safe exec Inv Next Q c'.shared p := by
  cases hstep
  case call op =>
    refine ⟨hinv, hrefl _, fun j p hj => ?_⟩
    rcases update_eq_some hj with ⟨rfl, rfl⟩ | ⟨-, hj⟩
    case inl => exact hop op _ hinv
    case inr => exact h j p hj
  case act i a next r s₁ hi he =>
    have ⟨hinv', hn', hr⟩ := h i _ hi _ (hrefl _) hinv r s₁ he
    refine ⟨hinv', hn', fun j p hj => ?_⟩
    rcases update_eq_some hj with ⟨rfl, rfl⟩ | ⟨-, hj⟩
    case inl => exact hr
    case inr => exact (h j p hj).later hn' htrans hq

include hs

theorem Config.Sound.step (h : c.Sound exec Inv Next) (hstep : Step exec program c c') :
    c'.Sound exec Inv Next ∧ Next c.shared c'.shared := by
  have ⟨hinv, hnext, hsafe⟩ :=
    hstep.safe hrefl htrans (fun _ => ⟨fun _ _ => trivial⟩) hs h.inv h.safe
  exact ⟨⟨hinv, hsafe⟩, hnext⟩

theorem Config.Sound.steps (h : c.Sound exec Inv Next)
    (hsteps : Relation.ReflTransGen (Step exec program) c c') :
    c'.Sound exec Inv Next ∧ Next c.shared c'.shared := by
  induction hsteps
  case refl => exact ⟨h, hrefl _⟩
  case tail hstep hi =>
    have ⟨hsound, hnext⟩ := hi.left.step hrefl htrans hs hstep
    exact ⟨hsound, htrans hi.right hnext⟩

-- In a system of safe programs the invariant always holds, and the state moves along `Next`.
theorem Reachable.sound (h₀ : Inv s₀) (h : Reachable exec program s₀ c) :
    c.Sound exec Inv Next := by
  induction h
  case init => exact ⟨h₀, fun _ _ h => nomatch h⟩
  case step hstep hi => exact (hi.step hrefl htrans hs hstep).left

-- A call that was made in `c₀`, from then on until another one takes its place.
inductive Since (exec : Exec A R σ) (program : ι → Program A R α) (i : Nat) (op : ι)
    (c₀ : Config A R α σ) : Config A R α σ → Prop
  | call : Since exec program i op c₀
      { c₀ with programs := update c₀.programs i (some (program op)) }
  | own {c : Config A R α σ} {a : A} {next : R a → Program A R α} {r : R a} {s : σ}
    (h : Since exec program i op c₀ c) (hp : c.programs i = some (.act a next))
    (he : exec a c.shared r s) :
    Since exec program i op c₀ ⟨s, update c.programs i (some (next r))⟩
  | other {c c' : Config A R α σ} (h : Since exec program i op c₀ c)
    (hstep : Step exec program c c') (hp : c'.programs i = c.programs i) :
    Since exec program i op c₀ c'

omit hrefl htrans hs in
theorem Since.steps (h : Since exec program i op c₀ c) :
    Relation.ReflTransGen (Step exec program) c₀ c := by
  induction h
  case call => exact .single (.call i op)
  case own hp he hi => exact hi.tail (.act i hp he)
  case other hstep hp hi => exact hi.tail hstep

-- What a call promises about its result is so when it has returned, and from then on.
theorem Since.post (h₀ : c₀.Sound exec Inv Next) (h : Since exec program i op c₀ c)
    (hop : ∀ s, Inv s → Safe exec Inv Next P s (program op)) (hp : ∀ a, Stable Next (P · a))
    (ha : c.programs i = some (.pure a)) : P c.shared a := by
  suffices hsafe : ∀ p, c.programs i = some p → Safe exec Inv Next P c.shared p from hsafe _ ha
  clear ha
  induction h
  case call =>
    intro p hi
    simp only [update_self, Option.some.injEq] at hi
    exact hi ▸ hop _ h₀.inv
  case own r s h hi he ih =>
    intro p hi'
    simp only [update_self, Option.some.injEq] at hi'
    have hinv := (h₀.steps hrefl htrans hs h.steps).left.inv
    exact hi' ▸ (ih _ hi _ (hrefl _) hinv r s he).right.right
  case other h hstep hi ih =>
    intro p hi'
    have hsound := (h₀.steps hrefl htrans hs h.steps).left
    exact (ih p (hi ▸ hi')).later (hsound.step hrefl htrans hs hstep).right htrans hp

-- What a call promises about its result was so at a moment between the call and its return.
theorem Since.moment (h₀ : c₀.Sound exec Inv Next) (h : Since exec program i op c₀ c)
    (hop : ∀ s, Inv s → Safe exec Inv Next P s (program op)) (ha : c.programs i = some (.pure a)) :
    ∃ c₁, Relation.ReflTransGen (Step exec program) c₀ c₁ ∧
      Relation.ReflTransGen (Step exec program) c₁ c ∧ P c₁.shared a := by
  suffices hm : ∃ c₁, Relation.ReflTransGen (Step exec program) c₀ c₁ ∧
      Relation.ReflTransGen (Step exec program) c₁ c ∧ c₁.programs i = c.programs i ∧
      ∀ p, c₁.programs i = some p → Safe exec Inv Next P c₁.shared p by
    have ⟨c₁, h₀₁, h₁, hi, hsafe⟩ := hm
    exact ⟨c₁, h₀₁, h₁, hsafe (.pure a) (hi.trans ha)⟩
  clear ha
  induction h
  case call =>
    refine ⟨_, .single (.call i op), .refl, rfl, fun p hi => ?_⟩
    simp only [update_self, Option.some.injEq] at hi
    exact hi ▸ hop _ h₀.inv
  case own r s h hi he ih =>
    have ⟨c₁, h₀₁, h₁, hsame, hsafe⟩ := ih
    refine ⟨_, h.steps.tail (.act i hi he), .refl, rfl, fun p hi' => ?_⟩
    simp only [update_self, Option.some.injEq] at hi'
    have hsound₁ := (h₀.steps hrefl htrans hs h₀₁).left
    have ⟨hsound, hnext⟩ := hsound₁.steps hrefl htrans hs h₁
    exact hi' ▸ (hsafe _ (hsame.trans hi) _ hnext hsound.inv r s he).right.right
  case other hstep hi ih =>
    have ⟨c₁, h₀₁, h₁, hsame, hsafe⟩ := ih
    exact ⟨c₁, h₀₁, h₁.tail hstep, hsame.trans hi.symm, hsafe⟩

end Sound

-- The rule for invariants that do not need to know what the others may do.
theorem Reachable.invariant (h₀ : Inv s₀)
    (hs : ∀ op s, Inv s → Safe exec Inv (fun _ _ => True) (fun _ _ => True) s (program op))
    (h : Reachable exec program s₀ c) : Inv c.shared :=
  (h.sound (fun _ => trivial) (fun _ _ => trivial) hs h₀).inv

end Safety

section Fallible

variable {A : Type} {R : A → Type} {α β ε σ : Type} (exec : Exec A R σ)
variable (Inv : σ → Prop) (Next : σ → σ → Prop)

-- The same for programs that may fail, with a promise about their results only.
def SafeOk (Q : σ → α → Prop) (s : σ) (x : ExceptT ε (Program A R) α) : Prop :=
  Safe exec Inv Next (fun s r => ∀ a, r = .ok a → Q s a) s x.run

variable {exec Inv Next} {Q : σ → α → Prop} {P : σ → β → Prop} {s : σ}

namespace SafeOk

variable {K : σ → Prop} {e : ε} {x : ExceptT ε (Program A R) α}
variable {f : α → ExceptT ε (Program A R) β}

theorem pure (h : Q s a) : SafeOk exec Inv Next Q s (Pure.pure a : ExceptT ε _ α) := by
  intro b hb
  cases hb
  exact h

theorem throw : SafeOk exec Inv Next Q s (throw e : ExceptT ε _ α) :=
  fun _ h => nomatch h

theorem guard {c : Prop} [Decidable c] (h : ¬c → SafeOk exec Inv Next Q s x) :
    SafeOk exec Inv Next Q s (if c then MonadExcept.throw e else x) := by
  split
  case isTrue => exact throw
  case isFalse hc => exact h hc

theorem lift {x : Except ε α} (h : ∀ a, x = .ok a → Q s a) :
    SafeOk exec Inv Next Q s (liftM x : ExceptT ε (Program A R) α) :=
  h

theorem bind (h : SafeOk exec Inv Next Q s x) (hf : ∀ s a, Q s a → SafeOk exec Inv Next P s (f a)) :
    SafeOk exec Inv Next P s (x >>= f) := by
  refine Safe.bind h fun s r hr => ?_
  cases r
  case error => exact fun _ h => nomatch h
  case ok a => exact hf s a (hr a rfl)

-- A check that takes no action leaves everything as it is.
theorem bindLift {x : Except ε α} (h : ∀ a, x = .ok a → SafeOk exec Inv Next P s (f a)) :
    SafeOk exec Inv Next P s ((liftM x : ExceptT ε (Program A R) α) >>= f) := by
  cases x
  case error => exact fun _ h => nomatch h
  case ok a => exact h a rfl

theorem map {f : α → β} (h : SafeOk exec Inv Next Q s x) (hf : ∀ s a, Q s a → P s (f a)) :
    SafeOk exec Inv Next P s (f <$> x) := by
  refine Safe.bind h fun s r hr => ?_
  cases r
  case error => exact fun _ h => nomatch h
  case ok a =>
    intro b hb
    cases hb
    exact hf s a (hr a rfl)

section

variable (hK : Stable Next K) (hk : K s) (h : SafeOk exec Inv Next Q s x)
include hK hk h

theorem keep : SafeOk exec Inv Next (fun s a => K s ∧ Q s a) s x :=
  Safe.mono (.keep h hK hk) fun _ _ hr a ha => ⟨hr.left, hr.right a ha⟩

-- What is known beforehand stays true.
theorem bindKeep (hf : ∀ s a, K s → Q s a → SafeOk exec Inv Next P s (f a)) :
    SafeOk exec Inv Next P s (x >>= f) := by
  refine Safe.bind (Safe.keep h hK hk) fun s r hr => ?_
  cases r
  case error => exact fun _ h => nomatch h
  case ok a => exact hf s a hr.left (hr.right a rfl)

theorem tryCatchKeep {f : ε → ExceptT ε (Program A R) α}
    (hf : ∀ s e, K s → SafeOk exec Inv Next Q s (f e)) :
    SafeOk exec Inv Next Q s (tryCatch x f) := by
  refine Safe.bind (Safe.keep h hK hk) fun s r hr => ?_
  cases r
  case error e => exact hf s e hr.left
  case ok => exact hr.right

end

section

variable (h : SafeOk exec Inv Next Q s x)
include h

theorem tryCatch {f : ε → ExceptT ε (Program A R) α}
    (hf : ∀ s e, SafeOk exec Inv Next Q s (f e)) : SafeOk exec Inv Next Q s (tryCatch x f) := by
  refine Safe.bind h fun s r hr => ?_
  cases r
  case error e => exact hf s e
  case ok => exact hr

theorem mono (hq : ∀ s a, Q s a → Q' s a) : SafeOk exec Inv Next Q' s x :=
  Safe.mono h fun s _ hr a ha => hq s a (hr a ha)

theorem safe : Safe exec Inv Next (fun _ _ => True) s x.run :=
  Safe.mono h fun _ _ _ => trivial

end

-- One action, for every state that the others may leave and every reply to it.
theorem act
    (h : ∀ s₁, Next s s₁ → Inv s₁ → ∀ r s₂, exec a s₁ r s₂ →
      Inv s₂ ∧ Next s₁ s₂ ∧ SafeOk exec Inv Next Q s₂ (.mk (next r))) :
    SafeOk exec Inv Next Q s (.mk (.act a next)) :=
  h

end SafeOk

end Fallible

section Errors

variable {A : Type} {R : A → Type} {α β ε σ : Type} (exec : Exec A R σ)
variable (Inv : σ → Prop) (Next : σ → σ → Prop) (E : ε → Prop)

-- The same with a promise about the errors as well.
def SafeElse (Q : σ → α → Prop) (s : σ) (x : ExceptT ε (Program A R) α) : Prop :=
  Safe exec Inv Next (fun s r => match r with
    | .ok a => Q s a
    | .error e => E e) s x.run

variable {exec Inv Next E} {Q : σ → α → Prop} {P : σ → β → Prop} {s : σ}

namespace SafeElse

variable {e : ε} {x : ExceptT ε (Program A R) α} {f : α → ExceptT ε (Program A R) β}

theorem pure (h : Q s a) : SafeElse exec Inv Next E Q s (Pure.pure a) :=
  h

theorem throw (h : E e) : SafeElse exec Inv Next E Q s (throw e) :=
  h

theorem guard {c : Prop} [Decidable c] (he : E e) (h : ¬c → SafeElse exec Inv Next E Q s x) :
    SafeElse exec Inv Next E Q s (if c then MonadExcept.throw e else x) := by
  split
  case isTrue => exact throw he
  case isFalse hc => exact h hc

theorem bind (h : SafeElse exec Inv Next E Q s x)
    (hf : ∀ s a, Q s a → SafeElse exec Inv Next E P s (f a)) :
    SafeElse exec Inv Next E P s (x >>= f) := by
  refine Safe.bind h fun s r hr => ?_
  cases r
  case error => exact hr
  case ok a => exact hf s a hr

theorem bindLift {x : Except ε α} (he : ∀ e, x = .error e → E e)
    (h : ∀ a, x = .ok a → SafeElse exec Inv Next E P s (f a)) :
    SafeElse exec Inv Next E P s ((liftM x : ExceptT ε (Program A R) α) >>= f) := by
  cases x
  case error e => exact he e rfl
  case ok a => exact h a rfl

theorem act
    (h : ∀ s₁, Next s s₁ → Inv s₁ → ∀ r s₂, exec a s₁ r s₂ →
      Inv s₂ ∧ Next s₁ s₂ ∧ SafeElse exec Inv Next E Q s₂ (.mk (next r))) :
    SafeElse exec Inv Next E Q s (.mk (.act a next)) :=
  h

end SafeElse

end Errors

section Results

variable {A : Type} {R : A → Type} {α σ ι : Type} {exec : Exec A R σ} {program : ι → Program A R α}
variable {Inv : σ → Prop} {Q : α → Prop} {s₀ : σ} {c : Config A R α σ} {i : Nat} {a : α}

def Config.result (c : Config A R α σ) (i : Nat) : Option α :=
  match c.programs i with
  | some (.pure a) => some a
  | _ => none

theorem Config.result_eq_some : c.result i = some a ↔ c.programs i = some (.pure a) := by
  unfold Config.result
  split
  case h_1 h => simp [h]
  case h_2 hne => exact ⟨nofun, fun h => absurd h (hne a)⟩

-- What every call promises about its result holds of all results.
theorem Reachable.results (h₀ : Inv s₀)
    (hs : ∀ op s, Inv s → Safe exec Inv (fun _ _ => True) (fun _ => Q) s (program op))
    (h : Reachable exec program s₀ c) : Inv c.shared ∧ ∀ i a, c.result i = some a → Q a := by
  suffices hsafe : Inv c.shared ∧ ∀ i p, c.programs i = some p →
      Safe exec Inv (fun _ _ => True) (fun _ => Q) c.shared p from
    ⟨hsafe.left, fun i a hi => hsafe.right i _ (Config.result_eq_some.mp hi)⟩
  induction h
  case init => exact ⟨h₀, fun _ _ h => nomatch h⟩
  case step hstep hi =>
    have ⟨hinv, _, hsafe⟩ := hstep.safe (fun _ => trivial) (fun _ _ => trivial)
      (fun _ => ⟨fun h _ => h⟩) hs hi.left hi.right
    exact ⟨hinv, hsafe⟩

end Results

section Renaming

variable {A B : Type} {R : B → Type} {α σ : Type} {exec : Exec B R σ} {f : A → B}
variable {Inv : σ → Prop} {Next : σ → σ → Prop} {Q : σ → α → Prop}

-- The same program as part of a larger system.
def Program.rename (f : A → B) : Program A (fun a => R (f a)) α → Program B R α
  | pure a => pure a
  | act a next => act (f a) fun r => (next r).rename f

theorem Safe.rename
    (h : Safe (fun a => exec (f a)) Inv Next Q s p) : Safe exec Inv Next Q s (p.rename f) := by
  induction p generalizing s
  case pure => exact h
  case act hi =>
    intro s₁ hn hv r s₂ he
    have ⟨hv, hn, h⟩ := h s₁ hn hv r s₂ he
    exact ⟨hv, hn, hi r h⟩

end Renaming

section Evaluation

variable {A : Type} {R : A → Type} {α β ε σ : Type} (reply : (a : A) → R a)

def evalOk (x : ExceptT ε (Program A R) α) : Except ε α :=
  x.run.eval reply

@[simp]
theorem evalOk_pure (a : α) : evalOk reply (pure a : ExceptT ε (Program A R) α) = .ok a :=
  rfl

@[simp]
theorem evalOk_lift (x : Except ε α) : evalOk reply (liftM x : ExceptT ε (Program A R) α) = x :=
  rfl

@[simp]
theorem evalOk_bind (x : ExceptT ε (Program A R) α) (f : α → ExceptT ε (Program A R) β) :
    evalOk reply (x >>= f) = evalOk reply x >>= fun a => evalOk reply (f a) := by
  refine (Program.eval_bind reply x.run _).trans ?_
  unfold evalOk
  cases x.run.eval reply <;> rfl

-- What is safe when others act is so when nobody does.
theorem Safe.eval {Inv : σ → Prop} (h : Safe exec Inv Next Q s p) (hi : Inv s) (hn : Next s s)
    (hr : ∀ a, exec a s (reply a) s) : Q s (p.eval reply) := by
  induction p
  case pure => exact h
  case act a next ih => exact ih _ (h s hn hi _ _ (hr a)).right.right

end Evaluation

section Actions

variable {A : Type} {R : A → Type} {α β ε : Type} {Q : A → Prop}

namespace Program

-- Every action that the program may come to satisfies `Q`.
def All (Q : A → Prop) : Program A R α → Prop
  | pure _ => True
  | act a next => Q a ∧ ∀ r, (next r).All Q

-- What is left of a program after some of its actions.
inductive Rest (p : Program A R α) : Program A R α → Prop
  | refl : Rest p p
  | act {a : A} {next : R a → Program A R α} (h : Rest p (act a next)) (r : R a) : Rest p (next r)

theorem All.rest {p q : Program A R α} (h : p.All Q) (hr : p.Rest q) : q.All Q := by
  induction hr
  case refl => exact h
  case act r hi => exact hi.right r

-- A call that is under way has some of its actions left.
theorem Rest.of_since {σ ι : Type} {exec : Exec A R σ} {program : ι → Program A R α} {i : Nat}
    {op : ι} {c₀ c : Config A R α σ} (h : Since exec program i op c₀ c) {q : Program A R α}
    (hq : c.programs i = some q) : (program op).Rest q := by
  induction h generalizing q
  case call =>
    simp only [update_self, Option.some.injEq] at hq
    exact hq ▸ .refl
  case own hp he hi =>
    simp only [update_self, Option.some.injEq] at hq
    exact hq ▸ (hi hp).act _
  case other hp hi => exact hi (hp ▸ hq)

theorem All.bind {f : α → Program A R β} (h : p.All Q)
    (hf : ∀ a, (f a).All Q) : (p >>= f).All Q := by
  induction p
  case pure a => exact hf a
  case act hi => exact ⟨h.left, fun r => hi r (h.right r)⟩

-- A program whose actions all keep the invariant.
theorem All.safe {σ : Type} {exec : Exec A R σ} {Inv : σ → Prop} {Next : σ → σ → Prop} {s : σ}
    (h : p.All Q) (hq : ∀ a s r s', Q a → Inv s → exec a s r s' → Inv s' ∧ Next s s') :
    Safe exec Inv Next (fun _ _ => True) s p := by
  induction p generalizing s
  case pure => trivial
  case act a next hi =>
    intro s₁ _ hinv r s₂ he
    have ⟨hinv', hnext⟩ := hq a s₁ r s₂ h.left hinv he
    exact ⟨hinv', hnext, hi r (h.right r)⟩

end Program

def AllOk (Q : A → Prop) (x : ExceptT ε (Program A R) α) : Prop :=
  x.run.All Q

namespace AllOk

variable {e : ε} {x : ExceptT ε (Program A R) α} {f : α → ExceptT ε (Program A R) β}

theorem pure : AllOk Q (Pure.pure a : ExceptT ε (Program A R) α) :=
  trivial

theorem throw : AllOk Q (throw e : ExceptT ε (Program A R) α) :=
  trivial

theorem guard {c : Prop} [Decidable c] (h : ¬c → AllOk Q x) :
    AllOk Q (if c then MonadExcept.throw e else x) := by
  split
  case isTrue => exact throw
  case isFalse hc => exact h hc

theorem lift {x : Except ε α} : AllOk Q (liftM x : ExceptT ε (Program A R) α) :=
  trivial

theorem bind (h : AllOk Q x) (hf : ∀ a, AllOk Q (f a)) : AllOk Q (x >>= f) := by
  refine Program.All.bind h fun r => ?_
  cases r
  case error => trivial
  case ok a => exact hf a

theorem bindLift {x : Except ε α} (h : ∀ a, x = .ok a → AllOk Q (f a)) :
    AllOk Q ((liftM x : ExceptT ε (Program A R) α) >>= f) := by
  cases x
  case error => trivial
  case ok a => exact h a rfl

theorem map {f : α → β} (h : AllOk Q x) : AllOk Q (f <$> x) := by
  refine Program.All.bind h fun r => ?_
  cases r <;> trivial

theorem tryCatch {f : ε → ExceptT ε (Program A R) α} (h : AllOk Q x) (hf : ∀ e, AllOk Q (f e)) :
    AllOk Q (tryCatch x f) := by
  refine Program.All.bind h fun r => ?_
  cases r
  case error e => exact hf e
  case ok => trivial

end AllOk

end Actions

end Interleaving

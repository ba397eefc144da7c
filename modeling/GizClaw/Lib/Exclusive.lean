import GizClaw.Lib.Interleaving

-- Calls that have a subject. Calls about different subjects run at the same time, and those about
-- one subject one after the other: a call starts when the ones before it have returned, or have
-- stopped and been given up.

namespace Interleaving

open Function (update update_of_ne update_self)

section Runs

variable {A : Type} {R : A → Type} {α σ ι χ : Type}

def Config.Done (c : Config A R α σ) (i : Nat) : Prop :=
  ∃ a, c.programs i = some (.pure a)

-- `calls` has the call whose program is in each place, unless it has stopped for good.
inductive Exclusive (exec : Exec A R σ) (program : ι → Program A R α)
    (about : ι → Option χ) (s₀ : σ) :
    Config A R α σ → (Nat → Option ι) → Prop where
  | init : Exclusive exec program about s₀ (.init s₀) fun _ => none
  | call {c : Config A R α σ} {calls : Nat → Option ι} (h : Exclusive exec program about s₀ c calls)
    (i : Nat) (op : ι)
    (hfree : ∀ j op', j ≠ i → calls j = some op' → about op' = about op →
      about op ≠ none → c.Done j) :
    Exclusive exec program about s₀
      { c with programs := update c.programs i (some (program op)) }
      (update calls i (some op))
  | act {c : Config A R α σ} {calls : Nat → Option ι} (h : Exclusive exec program about s₀ c calls)
    (i : Nat) {a : A}
    {next : R a → Program A R α} {r : R a} {s : σ} (hi : calls i ≠ none)
      (hp : c.programs i = some (.act a next))
    (he : exec a c.shared r s) :
    Exclusive exec program about s₀ ⟨s, update c.programs i (some (next r))⟩ calls
  | stop {c : Config A R α σ} {calls : Nat → Option ι}
    (h : Exclusive exec program about s₀ c calls) (i : Nat) :
    Exclusive exec program about s₀ c (update calls i none)

variable {exec : Exec A R σ} {program : ι → Program A R α} {about : ι → Option χ} {s₀ : σ}
  {c : Config A R α σ}
variable {calls : Nat → Option ι}

theorem Exclusive.reachable (h : Exclusive exec program about s₀ c calls) :
    Reachable exec program s₀ c := by
  induction h
  case init => exact .init
  case call i op _ hi => exact hi.step (.call i op)
  case act i _ _ _ _ _ hp he hi => exact hi.step (.act i hp he)
  case stop hi => exact hi

end Runs

section Actions

variable {A : Type} {R : A → Type} {α β ε : Type} {D : A → Prop} {Q : α → Prop} {S : β → Prop}

-- Every action that the program may come to satisfies `D`, and every result `Q`.
def Program.AllTo (D : A → Prop) (Q : α → Prop) : Program A R α → Prop
  | .pure a => Q a
  | .act a next => D a ∧ ∀ r, (next r).AllTo D Q

namespace Program.AllTo

theorem bind {f : α → Program A R β} (h : p.AllTo D Q) (hf : ∀ a, Q a → (f a).AllTo D S) :
    (p >>= f).AllTo D S := by
  induction p
  case pure a => exact hf a h
  case act hi => exact ⟨h.left, fun r => hi r (h.right r)⟩

end Program.AllTo

-- `E` is about the errors.
def Ends (E : ε → Prop) (Q : α → Prop) : Except ε α → Prop
  | .ok a => Q a
  | .error e => E e

def AllElse (D : A → Prop) (E : ε → Prop) (Q : α → Prop) (x : ExceptT ε (Program A R) α) : Prop :=
  x.run.AllTo D (Ends E Q)

variable {E : ε → Prop}

namespace AllElse

variable {e : ε} {x : ExceptT ε (Program A R) α} {f : α → ExceptT ε (Program A R) β}

theorem pure (h : Q a) : AllElse D E Q (Pure.pure a : ExceptT ε (Program A R) α) :=
  h

theorem throw (h : E e) : AllElse D E Q (throw e : ExceptT ε (Program A R) α) :=
  h

theorem guard {c : Prop} [Decidable c] (he : E e) (h : ¬c → AllElse D E Q x) :
    AllElse D E Q (if c then MonadExcept.throw e else x) := by
  split
  case isTrue => exact throw he
  case isFalse hc => exact h hc

theorem bind (h : AllElse D E Q x) (hf : ∀ a, Q a → AllElse D E S (f a)) :
    AllElse D E S (x >>= f) := by
  refine Program.AllTo.bind h fun r hr => ?_
  cases r
  case error => exact hr
  case ok a => exact hf a hr

theorem bindLift {x : Except ε α} (he : ∀ e, x = .error e → E e)
    (h : ∀ a, x = .ok a → AllElse D E S (f a)) :
    AllElse D E S ((liftM x : ExceptT ε (Program A R) α) >>= f) := by
  cases x
  case error e => exact he e rfl
  case ok a => exact h a rfl

theorem map {f : α → β} (h : AllElse D E Q x) (hf : ∀ a, Q a → S (f a)) :
    AllElse D E S (f <$> x) := by
  refine Program.AllTo.bind h fun r hr => ?_
  cases r
  case error => exact hr
  case ok a => exact hf a hr

end AllElse

end Actions

section Alone

variable {A : Type} {R : A → Type} {α β σ : Type} (exec : Exec A R σ) (Base : σ → Prop)
variable (D : A → Prop) (Aside : σ → σ → Prop) (Inv : σ → Prop)

-- A program about one subject, whose actions satisfy `D`. What others do meanwhile is beside it.
def Alone (Q : σ → α → Prop) : σ → Program A R α → Prop
  | s, .pure a => Q s a
  | s, .act a next => D a ∧ ∀ s₁, Aside s s₁ → Base s₁ → Inv s₁ → ∀ r s', exec a s₁ r s' →
    Base s' → Inv s' ∧ Alone Q s' (next r)

variable {exec Base D Aside Inv} {Q Q' : σ → α → Prop} {s s' : σ}

namespace Alone

variable {p : Program A R α}

theorem bind (h : Alone exec Base D Aside Inv Q s p)
    (hf : ∀ s a, Q s a → Alone exec Base D Aside Inv P s (f a)) :
    Alone exec Base D Aside Inv P s (p >>= f) := by
  induction p generalizing s
  case pure a => exact hf s a h
  case act hi =>
    refine ⟨h.left, fun s₁ ha hb hinv r s' he hb' => ?_⟩
    have ⟨hinv', hnext⟩ := h.right s₁ ha hb hinv r s' he hb'
    exact ⟨hinv', hi r hnext⟩

theorem mono (hq : ∀ s a, Q s a → Q' s a) (h : Alone exec Base D Aside Inv Q s p) :
    Alone exec Base D Aside Inv Q' s p :=
  p.bind_pure ▸ h.bind hq

theorem later {Q : α → Prop} (htrans : ∀ {s₁ s₂ s₃}, Aside s₁ s₂ →
    Aside s₂ s₃ → Aside s₁ s₃) (h : Alone exec Base D Aside Inv (fun _ => Q) s p) (ha : Aside s s')
    : Alone exec Base D Aside Inv (fun _ => Q) s' p := by
  cases p
  case pure => exact h
  case act => exact ⟨h.left, fun s₁ ha' => h.right s₁ (htrans ha ha')⟩

-- Actions that do nothing about the subject.
theorem of_allTo {Q : α → Prop} {K : σ → Prop} (h : p.AllTo D' Q) (hk : K s) (hd : ∀ a, D' a → D a)
    (haside : ∀ {s s'}, Aside s s' → K s → K s')
    (hstep : ∀ a s r s', D' a → Base s → Inv s → K s → exec a s r s' → Base s' → Inv s' ∧ K s') :
    Alone exec Base D Aside Inv (fun s a => K s ∧ Q a) s p := by
  induction p generalizing s
  case pure => exact ⟨hk, h⟩
  case act a next hi =>
    refine ⟨hd a h.left, fun s₁ ha hb hinv r s₂ he hb' => ?_⟩
    have ⟨hinv', hk'⟩ := hstep a s₁ r s₂ h.left hb hinv (haside ha hk) he hb'
    exact ⟨hinv', hi r (h.right r) hk'⟩

end Alone

end Alone

section Errors

variable {A : Type} {R : A → Type} {α β ε σ : Type} (exec : Exec A R σ) (Base : σ → Prop)
variable (D : A → Prop) (Aside : σ → σ → Prop) (Inv : σ → Prop) (E : ε → Prop)

-- The same with a promise about the errors.
def AloneElse (Q : σ → α → Prop) (s : σ) (x : ExceptT ε (Program A R) α) : Prop :=
  Alone exec Base D Aside Inv (fun s => Ends E (Q s)) s x.run

variable {exec Base D Aside Inv E} {Q : σ → α → Prop} {P : σ → β → Prop} {s : σ}

namespace AloneElse

variable {e : ε} {x : ExceptT ε (Program A R) α} {f : α → ExceptT ε (Program A R) β}

theorem pure (h : Q s a) : AloneElse exec Base D Aside Inv E Q s (Pure.pure a) :=
  h

theorem throw (h : E e) : AloneElse exec Base D Aside Inv E Q s (throw e) :=
  h

theorem guard {c : Prop} [Decidable c] (he : E e) (h : ¬c → AloneElse exec Base D Aside Inv E Q s x)
    : AloneElse exec Base D Aside Inv E Q s (if c then MonadExcept.throw e else x) := by
  split
  case isTrue => exact throw he
  case isFalse hc => exact h hc

theorem bind (h : AloneElse exec Base D Aside Inv E Q s x)
    (hf : ∀ s a, Q s a → AloneElse exec Base D Aside Inv E P s (f a)) :
    AloneElse exec Base D Aside Inv E P s (x >>= f) := by
  refine Alone.bind h fun s r hr => ?_
  cases r
  case error => exact hr
  case ok a => exact hf s a hr

theorem bindLift {x : Except ε α} (he : ∀ e, x = .error e → E e)
    (h : ∀ a, x = .ok a → AloneElse exec Base D Aside Inv E P s (f a)) :
    AloneElse exec Base D Aside Inv E P s ((liftM x : ExceptT ε (Program A R) α) >>= f) := by
  cases x
  case error e => exact he e rfl
  case ok a => exact h a rfl

theorem map {f : α → β} (h : AloneElse exec Base D Aside Inv E Q s x)
    (hf : ∀ s a, Q s a → P s (f a)) : AloneElse exec Base D Aside Inv E P s (f <$> x) := by
  refine Alone.bind h fun s r hr => ?_
  cases r
  case error => exact hr
  case ok a => exact hf s a hr

-- An error that is caught need not be a promised one.
theorem tryCatch {F : σ → ε → Prop} {f : ε → ExceptT ε (Program A R) α}
    (h : Alone exec Base D Aside Inv (fun s => Ends (F s) (Q s)) s x.run)
    (hf : ∀ s e, F s e → AloneElse exec Base D Aside Inv E Q s (f e)) :
    AloneElse exec Base D Aside Inv E Q s (tryCatch x f) := by
  refine Alone.bind h fun s r hr => ?_
  cases r
  case error e => exact hf s e hr
  case ok => exact hr

end AloneElse

end Errors

section Soundness

variable {A : Type} {R : A → Type} {α σ ι χ : Type} {exec : Exec A R σ}
variable {program : ι → Program A R α} {about : ι → Option χ} {s₀ : σ} {c : Config A R α σ}
variable {calls : Nat → Option ι} {Base : σ → Prop} {D : Option χ → A → Prop}
variable {Aside : χ → σ → σ → Prop} {Inv : χ → σ → Prop} {Q : α → Prop}

-- The calls about each subject have it for themselves.
structure Exclusive.Sound (exec : Exec A R σ) (about : ι → Option χ) (Base : σ → Prop)
    (D : Option χ → A → Prop) (Aside : χ → σ → σ → Prop) (Inv : χ → σ → Prop) (Q : α → Prop)
    (c : Config A R α σ) (calls : Nat → Option ι) : Prop where
  inv : ∀ x, Inv x c.shared
  own : ∀ i p op x, c.programs i = some p → calls i = some op → about op = some x →
    Alone exec Base (D (some x)) (Aside x) (Inv x) (fun _ => Q) c.shared p
  others : ∀ i p op, c.programs i = some p → calls i = some op → about op = none →
    p.AllTo (D none) Q
  single : ∀ i j op op', i ≠ j → calls i = some op → calls j = some op' → about op = about op' →
    about op ≠ none → c.Done i ∨ c.Done j

variable (hrefl : ∀ x s, Aside x s s)
variable (htrans : ∀ {x s₁ s₂ s₃}, Aside x s₁ s₂ → Aside x s₂ s₃ → Aside x s₁ s₃)
variable (hstable : ∀ {x s s'}, Aside x s s' → Inv x s → Inv x s')
variable (haside : ∀ x y a s r s', D y a → y ≠ some x → exec a s r s' → Aside x s s')

-- Whoever is done stays done.
theorem Config.Done.update (hj : j ≠ i) (h : c.Done j) :
    (⟨s, update c.programs i (some q)⟩ : Config A R α σ).Done j :=
  h.imp fun _ ha => (update_of_ne hj _ _).trans ha

namespace Exclusive.Sound

variable (h : Exclusive.Sound exec about Base D Aside Inv Q c calls)
include h

include hrefl htrans hstable haside in
theorem act (hi : calls i ≠ none) (hp : c.programs i = some (.act a next))
    (he : exec a c.shared r s) (hb : Base c.shared)
    (hb' : Base s) : Exclusive.Sound exec about Base D Aside Inv Q
      ⟨s, update c.programs i (some (next r))⟩ calls := by
  have ⟨op, hop⟩ := Option.ne_none_iff_exists'.mp hi
  have hnd {j : Nat} (hd : c.Done j) : j ≠ i := by
    rintro rfl
    exact nomatch hp.symm.trans hd.choose_spec
  have hdo : D (about op) a := by
    cases ha : about op
    case none => exact (h.others i _ op hp hop ha).left
    case some x => exact (h.own i _ op x hp hop ha).left
  have hnext {x : χ} (ha : about op = some x) : Inv x s ∧
      Alone exec Base (D (some x)) (Aside x) (Inv x) (fun _ => Q) s (next r) :=
    (h.own i _ op x hp hop ha).right c.shared (hrefl x _) hb (h.inv x) r s he hb'
  refine ⟨fun x => ?inv, fun j p op' x hj hop' ha => ?own, fun j p op' hj hop' ha => ?others,
    ?single⟩
  case inv =>
    by_cases ha : about op = some x
    case pos => exact (hnext ha).left
    case neg => exact hstable (haside x _ a _ r s hdo ha he) (h.inv x)
  case own =>
    rcases update_eq_some hj with ⟨rfl, rfl⟩ | ⟨hne, hj⟩
    case inl => exact (hnext (Option.some.inj (hop.symm.trans hop') ▸ ha)).right
    case inr =>
      -- The call is done if this one is about the same, and sees nothing of it if not.
      have hown := h.own j p op' x hj hop' ha
      by_cases ha' : about op = some x
      case neg => exact hown.later htrans (haside x _ a _ r s hdo ha' he)
      case pos =>
        have hdone := h.single j i op' op hne hop' hop (ha.trans ha'.symm) (by simp [ha])
        have ⟨b, hd⟩ := hdone.resolve_right fun hd => hnd hd rfl
        obtain rfl := Option.some.inj (hj.symm.trans hd)
        exact hown
  case others =>
    rcases update_eq_some hj with ⟨rfl, rfl⟩ | ⟨-, hj⟩
    case inl => exact (h.others j _ op' hp hop' ha).right r
    case inr => exact h.others j p op' hj hop' ha
  case single =>
    exact fun j k op₁ op₂ hjk h₁ h₂ he hn => (h.single j k op₁ op₂ hjk h₁ h₂ he hn).imp
      (fun hd => hd.update (hnd hd)) fun hd => hd.update (hnd hd)

theorem call
    (hfree : ∀ j op', j ≠ i → calls j = some op' → about op' = about op →
      about op ≠ none → c.Done j)
    (hown : ∀ x, about op = some x →
      Alone exec Base (D (some x)) (Aside x) (Inv x) (fun _ => Q) c.shared (program op))
    (hothers : about op = none → (program op).AllTo (D none) Q) :
    Exclusive.Sound exec about Base D Aside Inv Q
      { c with programs := update c.programs i (some (program op)) }
      (update calls i (some op)) := by
  refine ⟨h.inv, fun j p op' x hj hop' ha => ?own, fun j p op' hj hop' ha => ?others,
    fun j k op₁ op₂ hjk h₁ h₂ he hn => ?single⟩
  case own =>
    rcases update_eq_some hj with ⟨rfl, rfl⟩ | ⟨hne, hj⟩ <;>
      rcases update_eq_some hop' with ⟨he, rfl⟩ | ⟨he, hop'⟩
    case inl.inl => exact hown x ha
    case inr.inr => exact h.own j p op' x hj hop' ha
    case inl.inr => exact absurd rfl he
    case inr.inl => exact absurd he hne
  case others =>
    rcases update_eq_some hj with ⟨rfl, rfl⟩ | ⟨hne, hj⟩ <;>
      rcases update_eq_some hop' with ⟨he, rfl⟩ | ⟨he, hop'⟩
    case inl.inl => exact hothers ha
    case inr.inr => exact h.others j p op' hj hop' ha
    case inl.inr => exact absurd rfl he
    case inr.inl => exact absurd he hne
  case single =>
    rcases update_eq_some h₁ with ⟨rfl, rfl⟩ | ⟨hj, hcj⟩ <;>
      rcases update_eq_some h₂ with ⟨rfl, rfl⟩ | ⟨hk, hck⟩
    case inl.inl => exact absurd rfl hjk
    case inl.inr => exact .inr ((hfree k op₂ hk hck he.symm hn).update hk)
    case inr.inl => exact .inl ((hfree j op₁ hj hcj he (he ▸ hn)).update hj)
    case inr.inr => exact (h.single j k op₁ op₂ hjk hcj hck he hn).imp (.update hj) (.update hk)

theorem stop : Exclusive.Sound exec about Base D Aside Inv Q c (update calls i none) := by
  have hcalls {j : Nat} {op : ι} (hj : update calls i none j = some op) :
      calls j = some op := by
    refine (update_of_ne (fun he => ?_) _ _).symm.trans hj
    subst he
    nomatch (update_self ..).symm.trans hj
  exact ⟨h.inv, (fun j p op x hp hop => h.own j p op x hp (hcalls hop)),
    (fun j p op hp hop => h.others j p op hp (hcalls hop)),
    (fun j k op op' hjk hop hop' => h.single j k op op' hjk (hcalls hop) (hcalls hop'))⟩

end Exclusive.Sound

variable (hbase : ∀ c, Reachable exec program s₀ c → Base c.shared)

include hrefl htrans hstable haside hbase in
-- Every call is on its own as far as its subject goes.
theorem Exclusive.sound (hinit : ∀ x, Inv x s₀)
    (hown : ∀ op x s, about op = some x →
      Alone exec Base (D (some x)) (Aside x) (Inv x) (fun _ => Q) s (program op))
    (hothers : ∀ op, about op = none → (program op).AllTo (D none) Q)
    (h : Exclusive exec program about s₀ c calls) :
    Exclusive.Sound exec about Base D Aside Inv Q c calls := by
  induction h
  case init =>
    exact ⟨hinit, (fun _ _ _ _ hp => nomatch hp), (fun _ _ _ hp => nomatch hp),
      (fun _ _ _ _ _ hc => nomatch hc)⟩
  case call c calls h i op hfree hi => exact hi.call hfree (hown op · c.shared) (hothers op)
  case stop hi => exact hi.stop
  case act c calls h i a next r s hne hp he hi =>
    exact hi.act hrefl htrans hstable haside hne hp he (hbase c h.reachable)
      (hbase _ (h.reachable.step (.act i hp he)))

end Soundness

section Schedules

variable {A : Type} {R : A → Type} {α σ ι χ ξ : Type} [DecidableEq χ]

inductive Move (ι ξ : Type) where
  | turn (t : Turn ι ξ)
  | stop (i : Nat)

-- A run as far as it has been played. No other places than the ones in `used` have calls.
structure Play (A : Type) (R : A → Type) (α σ ι : Type) where
  config : Config A R α σ
  calls : Nat → Option ι
  used : List Nat

variable (perform : ξ → (a : A) → σ → Option (R a × σ)) (program : ι → Program A R α)
variable (about : ι → Option χ)

namespace Play

def init (s₀ : σ) : Play A R α σ ι :=
  ⟨.init s₀, fun _ => none, []⟩

def move (p : Play A R α σ ι) : Move ι ξ → Option (Play A R α σ ι)
  | .turn (.call i op) =>
    if ∀ j ∈ p.used, j = i ∨ about op = none ∨ (p.calls j).bind about ≠ about op ∨
        (p.config.result j).isSome then
      (p.config.turn perform program (.call i op)).map
        (⟨·, update p.calls i (some op), i :: p.used⟩)
    else none
  | .turn (.act i choice) =>
    if (p.calls i).isSome then
      (p.config.turn perform program (.act i choice)).map (⟨·, p.calls, p.used⟩)
    else none
  | .stop i => some { p with calls := update p.calls i none }

def run (p : Play A R α σ ι) (moves : List (Move ι ξ)) : Option (Play A R α σ ι) :=
  moves.foldlM (move perform program about) p

variable {perform program about} {exec : Exec A R σ} {s₀ : σ} {p p' : Play A R α σ ι}

structure Valid (exec : Exec A R σ) (program : ι → Program A R α) (about : ι → Option χ) (s₀ : σ)
    (p : Play A R α σ ι) : Prop where
  exclusive : Exclusive exec program about s₀ p.config p.calls
  used : ∀ j ∉ p.used, p.calls j = none

variable (hp : ∀ ch a s r s', perform ch a s = some (r, s') → exec a s r s')
  (h : p.Valid exec program about s₀)
include hp h

theorem Valid.move (hm : p.move perform program about m = some p') :
    p'.Valid exec program about s₀ := by
  cases m
  case stop i =>
    cases hm
    refine ⟨h.exclusive.stop i, fun j hj => ?_⟩
    by_cases hji : j = i
    case pos => rw [hji]; exact update_self ..
    case neg => exact (update_of_ne hji _ _).trans (h.used j hj)
  case turn t =>
    cases t
    case call i op =>
      simp only [Play.move, Option.ite_none_right_eq_some] at hm
      obtain ⟨hfree, hm⟩ := hm
      cases hm
      refine ⟨h.exclusive.call i op fun j op' hji hop' ha hne => ?_, fun j hj => ?_⟩
      · have hj : j ∈ p.used := by
          by_contra hj
          cases hop'.symm.trans (h.used j hj)
        rcases hfree j hj with he | he | he | he
        case inl => exact absurd he hji
        case inr.inl => exact absurd he hne
        case inr.inr.inl => exact absurd (by rw [hop']; exact ha) he
        case inr.inr.inr =>
          obtain ⟨a, ha⟩ := Option.isSome_iff_exists.mp he
          exact ⟨a, Config.result_eq_some.mp ha⟩
      · rw [List.mem_cons, not_or] at hj
        exact (update_of_ne hj.left _ _).trans (h.used j hj.right)
    case act i choice =>
      simp only [Play.move, Option.ite_none_right_eq_some, Option.map_eq_some_iff] at hm
      obtain ⟨hi, c, hc, rfl⟩ := hm
      simp only [Config.turn] at hc
      split at hc
      case h_2 => cases hc
      case h_1 hpi =>
        obtain ⟨⟨r, s⟩, hr, rfl⟩ := Option.map_eq_some_iff.mp hc
        have hne : p.calls i ≠ none := Option.isSome_iff_ne_none.mp hi
        exact ⟨h.exclusive.act i hne hpi (hp _ _ _ _ _ hr), h.used⟩

theorem Valid.run (hr : p.run perform program about moves = some p') :
    p'.Valid exec program about s₀ := by
  induction moves generalizing p
  case nil => cases hr; exact h
  case cons hi =>
    obtain ⟨p₁, hp₁, hr⟩ := Option.bind_eq_some_iff.mp hr
    exact hi (h.move hp hp₁) hr

end Play

-- What a schedule computes comes from a run.
theorem Exclusive.exists_run {perform : ξ → (a : A) → σ → Option (R a × σ)}
    {program : ι → Program A R α} {about : ι → Option χ} {exec : Exec A R σ} {s₀ : σ} {β : Type}
    {b : β} {f : Play A R α σ ι → β} {moves : List (Move ι ξ)}
    (hp : ∀ ch a s r s', perform ch a s = some (r, s') → exec a s r s')
    (h : ((Play.init s₀).run perform program about moves).map f = some b) :
    ∃ p : Play A R α σ ι, Exclusive exec program about s₀ p.config p.calls ∧ f p = b := by
  obtain ⟨p, hrun, hf⟩ := Option.map_eq_some_iff.mp h
  have hinit : (Play.init s₀).Valid exec program about s₀ := ⟨.init, fun _ _ => rfl⟩
  exact ⟨p, (hinit.run hp hrun).exclusive, hf⟩

end Schedules

end Interleaving

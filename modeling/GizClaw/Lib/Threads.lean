import GizClaw.Lib.Interleaving

-- Threads of one process. They share a state, start other threads, and run until they are done.
-- What a thread has taken upon itself is kept in tokens, and the invariant is about the shared
-- state and all tokens that are held.

namespace Threads

open Interleaving

-- Actions start the threads that `forks` lists. Only external threads start by themselves.
structure System (A : Type) (R : A → Type) (σ ι α : Type) where
  exec : Exec A R σ
  forks : (a : A) → R a → List ι
  program : ι → Program A R α
  external : ι → Bool
  init : σ

structure Config (A : Type) (R : A → Type) (σ ι α : Type) where
  shared : σ
  threads : List (ι × Program A R α)

variable {A : Type} {R : A → Type} {σ ι α β χ τ : Type}

def System.start (S : System A R σ ι α) (op : ι) : ι × Program A R α :=
  (op, S.program op)

inductive Step (S : System A R σ ι α) : Config A R σ ι α → Config A R σ ι α → Prop
  | start {s : σ} {ts : List (ι × Program A R α)} (op : ι) (h : S.external op) :
    Step S ⟨s, ts⟩ ⟨s, ts ++ [S.start op]⟩
  | act {s s' : σ} {ts ts' : List (ι × Program A R α)} {op : ι} {a : A}
    {next : R a → Program A R α} {r : R a} (h : S.exec a s r s') :
    Step S ⟨s, ts ++ (op, .act a next) :: ts'⟩
      ⟨s', ts ++ (op, next r) :: (ts' ++ (S.forks a r).map S.start)⟩

inductive Reachable (S : System A R σ ι α) : Config A R σ ι α → Prop
  | init : Reachable S ⟨S.init, []⟩
  | step {c c' : Config A R σ ι α} (hr : Reachable S c) (hs : Step S c c') : Reachable S c'

section Schedules

-- One step of a given thread. The choice settles what the action leaves open.
inductive Turn (ι χ : Type) where
  | start (op : ι)
  | act (i : Nat) (choice : χ)

variable (S : System A R σ ι α) (perform : χ → (a : A) → σ → Option (R a × σ))

def Config.turn (c : Config A R σ ι α) : Turn ι χ → Option (Config A R σ ι α)
  | .start op => if S.external op then some ⟨c.shared, c.threads ++ [S.start op]⟩ else none
  | .act i choice =>
    match c.threads[i]? with
    | some (op, .act a next) => (perform choice a c.shared).map fun (r, s) =>
      ⟨s, c.threads.take i ++ (op, next r) :: (c.threads.drop (i + 1) ++ (S.forks a r).map S.start)⟩
    | _ => none

def Config.run (c : Config A R σ ι α) (turns : List (Turn ι χ)) : Option (Config A R σ ι α) :=
  turns.foldlM (Config.turn S perform) c

variable {S perform} {c c' : Config A R σ ι α}

theorem Config.step_of_turn {turn : Turn ι χ}
    (hp : ∀ ch a s r s', perform ch a s = some (r, s') → S.exec a s r s')
    (h : c.turn S perform turn = some c') : Step S c c' := by
  cases turn
  case start op =>
    simp only [Config.turn, Option.ite_none_right_eq_some, Option.some.injEq] at h
    obtain ⟨he, rfl⟩ := h
    exact .start op he
  case act i choice =>
    simp only [Config.turn] at h
    split at h
    case h_1 op a next hi =>
      have ⟨⟨r, s⟩, hr, hc⟩ := Option.map_eq_some_iff.mp h
      subst hc
      have ⟨hlt, he⟩ := List.getElem?_eq_some_iff.mp hi
      have hsplit : c.threads = c.threads.take i ++ (op, .act a next) ::
          c.threads.drop (i + 1) := by
        rw [← he, List.getElem_cons_drop, List.take_append_drop]
      obtain ⟨shared, threads⟩ := c
      have hstep : Step S ⟨shared, threads.take i ++ (op, .act a next) :: threads.drop (i + 1)⟩ _ :=
        .act (hp _ _ _ _ _ hr)
      rwa [← hsplit] at hstep
    case h_2 => contradiction

theorem Reachable.run {turns : List (Turn ι χ)}
    (hp : ∀ ch a s r s', perform ch a s = some (r, s') → S.exec a s r s')
    (h : Reachable S c) (hr : c.run S perform turns = some c') : Reachable S c' := by
  induction turns generalizing c
  case nil => cases hr; exact h
  case cons hi =>
    have ⟨c₁, h₁, hr⟩ := Option.bind_eq_some_iff.mp hr
    exact hi (h.step (Config.step_of_turn hp h₁)) hr

-- What a schedule computes is reachable.
theorem Reachable.exists_run (hp : ∀ ch a s r s', perform ch a s = some (r, s') → S.exec a s r s')
    (hr : ((Config.mk S.init []).run S perform turns).map f = some b) :
    ∃ c, Reachable S c ∧ f c = b := by
  have ⟨c, hc, hf⟩ := Option.map_eq_some_iff.mp hr
  exact ⟨c, Reachable.init.run hp hc, hf⟩

end Schedules

section Objects

variable {κ : Type} [DecidableEq κ] (about : τ → Option κ)

-- The tokens that are about one object.
def on (tokens : Multiset τ) (k : κ) : Multiset τ :=
  tokens.filter (about · = some k)

variable {about} {tokens tokens' : Multiset τ} {t : τ} {k : κ}

@[simp]
theorem on_zero : on about 0 k = 0 :=
  rfl

@[simp]
theorem on_add : on about (tokens + tokens') k = on about tokens k + on about tokens' k :=
  Multiset.filter_add ..

theorem on_singleton : on about {t} k = if about t = some k then {t} else 0 :=
  Multiset.filter_singleton _

theorem mem_on : t ∈ on about tokens k ↔ t ∈ tokens ∧ about t = some k :=
  Multiset.mem_filter

end Objects

section Ownership

variable (S : System A R σ ι α) (Inv : σ → Multiset τ → Prop) (Entry : ι → Multiset τ → Prop)

-- A program that holds some tokens, while others hold any others that the invariant admits. Its
-- actions exchange tokens, and give away those that the threads they start may start with.
def Owns {β : Type} (Q : β → Multiset τ → Prop) : Multiset τ → Program A R β → Prop
  | held, .pure a => Q a held
  | held, .act a next => ∀ s rest r s', Inv s (held + rest) → S.exec a s r s' →
      ∃ held' given, List.Forall₂ Entry (S.forks a r) given ∧
        Inv s' (held' + given.sum + rest) ∧ Owns Q held' (next r)

variable {S Inv Entry} {β γ : Type} {Q Q' : β → Multiset τ → Prop} {held : Multiset τ}

namespace Owns

theorem bind (h : Owns S Inv Entry Q held p)
    (hf : ∀ a held, Q a held → Owns S Inv Entry P held (f a)) :
    Owns S Inv Entry P held (p >>= f) := by
  induction p generalizing held
  case pure a => exact hf a held h
  case act hi =>
    intro s rest r s' hinv he
    have ⟨held', given, hg, hinv', h'⟩ := h s rest r s' hinv he
    exact ⟨held', given, hg, hinv', hi r h'⟩

theorem mono (h : Owns S Inv Entry Q held p)
    (hq : ∀ a held, Q a held → Q' a held) : Owns S Inv Entry Q' held p :=
  p.bind_pure ▸ h.bind hq

-- Tokens that a program does not need stay with it.
theorem frame (h : Owns S Inv Entry Q held p) (more : Multiset τ) :
    Owns S Inv Entry (fun a all => ∃ some, Q a some ∧ all = some + more) (held + more) p := by
  induction p generalizing held
  case pure => exact ⟨held, h, rfl⟩
  case act hi =>
    intro s rest r s' hinv he
    rw [add_assoc] at hinv
    have ⟨held', given, hg, hinv', h'⟩ := h s (more + rest) r s' hinv he
    refine ⟨held' + more, given, hg, ?_, hi r h'⟩
    rwa [add_right_comm held' more, add_assoc (held' + given.sum)]

theorem frame_eq {left : β → Multiset τ} (h : Owns S Inv Entry (fun a all => all = left a) held p)
    (more : Multiset τ) : Owns S Inv Entry (fun a all => all = left a + more) (held + more) p :=
  (h.frame more).mono fun _ _ ⟨_, hleft, hall⟩ => hleft ▸ hall

-- The rule for an action that starts no thread.
theorem act (hforks : ∀ r, S.forks a r = [])
    (h : ∀ s rest r s', Inv s (held + rest) → S.exec a s r s' →
      ∃ held', Inv s' (held' + rest) ∧ Owns S Inv Entry Q held' (next r)) :
    Owns S Inv Entry Q held (.act a next) := by
  intro s rest r s' hinv he
  have ⟨held', hinv', h'⟩ := h s rest r s' hinv he
  refine ⟨held', [], ?_, by simpa using hinv', h'⟩
  rw [hforks]
  exact .nil

end Owns

variable (S Inv Entry) in
-- What all threads hold agrees with the shared state.
structure Sound (c : Config A R σ ι α) (held : List (Multiset τ)) : Prop where
  inv : Inv c.shared held.sum
  owns : List.Forall₂ (fun tokens t => Owns S Inv Entry (fun _ left => left = 0) tokens t.snd) held
    c.threads

theorem forall₂_start
    (hentry : ∀ op tokens, Entry op tokens →
      Owns S Inv Entry (fun _ left => left = 0) tokens (S.program op))
    (h : List.Forall₂ Entry ops given) :
    List.Forall₂ (fun tokens (t : ι × Program A R α) =>
      Owns S Inv Entry (fun _ left => left = 0) tokens t.snd) given (ops.map S.start) := by
  induction h
  case nil => exact .nil
  case cons h _ hi => exact .cons (hentry _ _ h) hi

-- In a system whose threads keep to their tokens the invariant always holds.
theorem Reachable.sound (h₀ : Inv S.init 0)
    (hentry : ∀ op tokens, Entry op tokens →
      Owns S Inv Entry (fun _ left => left = 0) tokens (S.program op))
    (hexternal : ∀ op, S.external op → Entry op 0) (h : Reachable S c) :
    ∃ held, Sound S Inv Entry c held := by
  induction h
  case init => exact ⟨[], h₀, .nil⟩
  case step hs hi =>
    obtain ⟨held, hinv, howns⟩ := hi
    cases hs
    case start op he _ =>
      refine ⟨held ++ [0], by simpa using hinv, List.rel_append howns (.cons ?_ .nil)⟩
      exact hentry op 0 (hexternal op he)
    case act s s' ts ts' op a next r he _ =>
      have howns₁ := List.forall₂_take_append held ts _ howns
      have howns₂ := List.forall₂_drop_append held ts _ howns
      obtain ⟨tokens, held₂, hown, howns₂, hdrop⟩ := List.forall₂_cons_right_iff.mp howns₂
      have hsplit : held.sum = tokens + ((held.take ts.length).sum + held₂.sum) := by
        conv_lhs => rw [← List.take_append_drop ts.length held, hdrop]
        rw [List.sum_append, List.sum_cons, add_left_comm]
      generalize held.take ts.length = held₁ at howns₁ hsplit
      have ⟨tokens', given, hgiven, hinv', hown'⟩ := hown s _ r s' (hsplit ▸ hinv) he
      refine ⟨held₁ ++ tokens' :: (held₂ ++ given), ?_, ?_⟩
      · have hsum : (held₁ ++ tokens' :: (held₂ ++ given)).sum =
            tokens' + given.sum + (held₁.sum + held₂.sum) := by
          rw [List.sum_append, List.sum_cons, List.sum_append]
          ac_rfl
        exact hsum ▸ hinv'
      · exact List.rel_append howns₁
          (.cons hown' (List.rel_append howns₂ (forall₂_start hentry hgiven)))

def Done (t : ι × Program A R α) : Prop :=
  ∃ a, t.snd = .pure a

instance (t : ι × Program A R α) : Decidable (Done t) :=
  match t with
  | (_, .pure a) => .isTrue ⟨a, rfl⟩
  | (_, .act ..) => .isFalse fun ⟨_, h⟩ => nomatch h

-- When all threads are done nobody holds anything.
theorem Sound.quiet {held : List (Multiset τ)} (h : Sound S Inv Entry c held)
    (hdone : ∀ t ∈ c.threads, Done t) : Inv c.shared 0 := by
  have hzero : held.sum = 0 := by
    have howns := h.owns
    clear h
    generalize c.threads = ts at howns hdone
    induction howns
    case nil => rfl
    case cons hown _ hi =>
      have ⟨hhead, htail⟩ := List.forall_mem_cons.mp hdone
      have ⟨a, ha⟩ := hhead
      rw [ha] at hown
      rw [List.sum_cons, hi htail, add_zero]
      exact hown
  exact hzero ▸ h.inv

end Ownership

end Threads

import GizClaw.Lib.Except
import GizClaw.KV.Basic

namespace GizClaw.KV

variable {o : Option Options} {now : Time}

theorem checkDeadlines_ok_iff :
    checkDeadlines now es = .ok () ↔ ∀ e ∈ es, ∀ d ∈ e.deadline, now < d := by
  induction es
  case nil => simp [checkDeadlines]
  case cons hi =>
    unfold checkDeadlines
    split
    case h_1 d h =>
      by_cases hd : d ≤ now <;> simp [h, hd, hi]
      exact fun _ => lt_of_not_ge hd
    case h_2 h => simp [h, hi]

theorem checkDeadlines_append (xs ys : List (Entry o)) :
    checkDeadlines now (xs ++ ys) = (do checkDeadlines now xs; checkDeadlines now ys) := by
  induction xs
  case nil => rfl
  case cons hi =>
    simp only [List.cons_append, checkDeadlines, hi]
    split
    case h_1 => split <;> rfl
    case h_2 => rfl

theorem checkDeadlines_error (h : checkDeadlines now es = .error err) : err = .invalidDeadline := by
  induction es
  case nil => simp [checkDeadlines] at h
  case cons hi =>
    unfold checkDeadlines at h
    split at h
    case h_2 => exact hi h
    case h_1 =>
      split at h
      case isTrue => exact (Except.error.inj h).symm
      case isFalse => exact hi h

-- The times at which `time.Time.UnixNano` is defined, from the epoch on.
def Readable (t : Time) : Prop :=
  0 ≤ t ∧ t < 2 ^ 63

instance : DecidablePred Readable :=
  fun _ => inferInstanceAs (Decidable (_ ∧ _))

theorem Readable.unixNano_eq {t : Int} (h : Readable t) : unixNano t = t := by
  obtain ⟨hz, hb⟩ : (0 : Int) ≤ t ∧ t < (2 : Int) ^ 63 := h
  unfold unixNano int64
  rw [Int.bmod_eq_of_le] <;> omega

-- The entries that a call writes.
def Write.entries : Write o → List (Entry o)
  | set .. => []
  | delete .. => []
  | batchMutate entries _ => entries
  | applyMutation m => m.entries

def Request.entries : Request o → List (Entry o)
  | write w => w.entries
  | createIfAllAbsent guards entries => guards ++ entries

def Request.guards : Request o → List (Entry o)
  | write _ => []
  | createIfAllAbsent guards _ => guards

-- The deadlines that an `int64` of nanoseconds can hold.
def Representable (entries : List (Entry o)) : Prop :=
  ∀ entry ∈ entries, ∀ d ∈ entry.deadline, unixNano d = d

namespace Mutation

-- What `validate` promises to the code behind it.
structure Valid (now : Time) (m : Mutation o) : Prop where
  deadlines : ∀ e ∈ m.entries, ∀ d ∈ e.deadline, now < d
  limits : ∀ g ∈ m.groups, 0 ≤ g.maxMembers ∧ (g.phase.adds = false → g.maxMembers = 0)
  fresh : ∀ g ∈ m.groups, g.key.encode ∉ m.records
  kinds : m.groups.Pairwise fun g₁ g₂ =>
    g₁.key.encode = g₂.key.encode → g₁.phase.ordered = g₂.phase.ordered

end Mutation

theorem validateGroups_ok {gs : List (Group o)} (h : validateGroups records kinds gs = .ok ()) :
    (∀ g ∈ gs, 0 ≤ g.maxMembers ∧ (g.phase.adds = false → g.maxMembers = 0)) ∧
    (∀ g ∈ gs, g.key.encode ∉ records) ∧
    (∀ g ∈ gs, ∀ k ∈ kinds g.key.encode, k = g.phase.ordered) ∧
    (gs.Pairwise fun g₁ g₂ => g₁.key.encode = g₂.key.encode → g₁.phase.ordered = g₂.phase.ordered)
    := by
  induction gs generalizing kinds
  case nil => simp
  case cons g gs hi =>
    unfold validateGroups at h
    split_ifs at h with hl hk hr
    have ⟨h₁, h₂, h₃, h₄⟩ := hi h
    have hg : ∀ k ∈ kinds g.key.encode, k = g.phase.ordered := by
      intro k hm
      cases k <;> simp_all
    push Not at hl
    simp only [List.mem_cons, forall_eq_or_imp, List.pairwise_cons]
    refine ⟨⟨hl, h₁⟩, ⟨hr, h₂⟩, ⟨hg, ?kinds⟩, ?pair, h₄⟩
    case pair =>
      intro g' hm he
      exact h₃ g' hm _ (by simp [he])
    case kinds =>
      intro g' hm k hk'
      by_cases he : g'.key.encode = g.key.encode
      case neg => exact h₃ g' hm k (by rwa [Function.update_of_ne he])
      case pos =>
        rw [he] at hk'
        exact hg k hk' |>.trans <| h₃ g' hm _ (by simp [he])

theorem Mutation.validate_valid {m : Mutation o} (h : m.validate now = .ok ()) : m.Valid now := by
  have ⟨_, hd, hg⟩ := Except.bind_eq_ok.mp h
  have ⟨h₁, h₂, _, h₄⟩ := validateGroups_ok hg
  exact ⟨checkDeadlines_ok_iff.mp hd, h₁, h₂, h₄⟩

theorem settle_rel {σ τ : Type} {R : σ → τ → Prop} {s : σ} {t : τ}
    {x : Except Err (Option σ)} {y : Except Err (Option τ)}
    (hr : R s t) (h : Except.Rel (Option.Rel R) x y) :
    (settle s x).fst = (settle t y).fst ∧ R (settle s x).snd (settle t y).snd := by
  cases h
  case error => exact ⟨rfl, hr⟩
  case ok h =>
    cases h
    case none => exact ⟨rfl, hr⟩
    case some h => exact ⟨rfl, h⟩

theorem settleCreate_rel {σ τ : Type} {R : σ → τ → Prop} {s : σ} {t : τ}
    {x : Except Err ((Key o × Bytes) ⊕ σ)} {y : Except Err ((Key o × Bytes) ⊕ τ)}
    (hr : R s t) (h : Except.Rel (Sum.LiftRel Eq R) x y) :
    (settleCreate s x).fst = (settleCreate t y).fst ∧
    R (settleCreate s x).snd (settleCreate t y).snd := by
  cases h
  case error => exact ⟨rfl, hr⟩
  case ok h =>
    cases h
    case inl h => subst h; exact ⟨rfl, hr⟩
    case inr h => exact ⟨rfl, h⟩

def sampleKey : Key none :=
  ⟨[[97]], by decide, by decide⟩

end GizClaw.KV

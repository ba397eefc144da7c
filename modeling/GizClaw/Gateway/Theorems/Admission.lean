import GizClaw.Gateway.Admission
import GizClaw.Lib.Tally

-- Where admissions are, who has to do what about them, and how that fits the counters of the
-- gateway.

namespace GizClaw.Gateway

open Interleaving (Program)
open Threads (on on_add on_singleton mem_on)
open Multiset (replicate notMem_zero mem_singleton_self)

-- What a thread may have taken upon itself. Whoever has custody of a waiting admission, which the
-- queue can have as well, sees to it that it does not wait for ever. `past` is known of an
-- admission whose timer was set, `cancelled` once the gateway was told to stop, and `drained` once
-- the queue was emptied for good.
inductive Token where
  | handler (a : Nat) (upstream : Option Nat)
  | custody (a : Nat)
  | activating (a : Nat)
  | session (a : Nat) (upstream : Option Nat)
  | unpending (a : Nat)
  | emptying (a : Nat)
  | removing (a : Nat)
  | deactivating (a : Nat)
  | vacating (a : Nat)
  | holding (upstream : Nat)
  | past (a : Nat)
  | cancelled
  | drained
  deriving DecidableEq

def Token.about : Token → Option Nat
  | .handler a _ => some a
  | .custody a => some a
  | .activating a => some a
  | .session a _ => some a
  | .unpending a => some a
  | .emptying a => some a
  | .removing a => some a
  | .deactivating a => some a
  | .vacating a => some a
  | .holding _ => none
  | .past _ => none
  | .cancelled => none
  | .drained => none

-- The way of an admission. From `unpending` to `removing` it is released without a session, and
-- from `deactivating` to `vacating` after one.
inductive Stage where
  | handled
  | waiting
  | activating
  | session
  | unpending
  | emptying
  | removing
  | deactivating
  | vacating
  | done

def Token.stage : Token → Option Stage
  | .handler .. => some .handled
  | .activating _ => some .activating
  | .session .. => some .session
  | .unpending _ => some .unpending
  | .emptying _ => some .emptying
  | .removing _ => some .removing
  | .deactivating _ => some .deactivating
  | .vacating _ => some .vacating
  | _ => none

namespace Stage

-- The duty at a stage, which exactly one thread has.
def tokens (a : Nat) (upstream : Option Nat) : Stage → Multiset Token
  | handled => {.handler a upstream}
  | waiting => 0
  | activating => {.activating a}
  | session => {.session a upstream}
  | unpending => {.unpending a}
  | emptying => {.emptying a}
  | removing => {.removing a}
  | deactivating => {.deactivating a}
  | vacating => {.vacating a}
  | done => 0

def phase : Stage → Phase
  | handled | waiting => .waiting
  | activating | session => .promoted
  | _ => .released

def slot : Stage → Slot
  | handled | waiting | activating | unpending => .pending
  | session | deactivating => .active
  | _ => .free

structure Fits (st : Stage) (x : Admission) : Prop where
  phase : x.phase = st.phase
  slot : x.slot = st.slot
  unarmed : st = .handled → x.armed = false
  emptied : st = .removing ∨ st = .done → x.releaseUpstream = none
  removed : st ≠ .done → x.removed = false
  promotions : x.promotions ≤ 1
  unpromoted : st.phase = .waiting → x.promotions = 0
  returns : x.returns = if st.slot = .free then 1 else 0
  burst : st.slot = .free → x.burstSCTP = false

-- In how many hands an admission may be, and how often in the queue.
def Custody : Stage → Nat → Nat → Prop
  | waiting, hands, queued => hands + queued = 1
  | unpending, hands, queued => hands + queued ≤ 1
  | emptying, hands, queued => hands + queued ≤ 1
  | removing, hands, queued => hands + queued ≤ 1
  | done, hands, queued => hands ≤ 1 ∧ queued = 0
  | _, hands, queued => hands = 0 ∧ queued = 0

variable {st : Stage} {a : Nat} {u : Option Nat} {t : Token}

theorem tokens_eq_of_mem (h : t ∈ st.tokens a u) :
    st.tokens a u = {t} ∧ t.stage = some st ∧ t.about = some a := by
  cases st <;> simp only [tokens, Multiset.mem_singleton, notMem_zero] at h
  all_goals
    subst h
    exact ⟨rfl, rfl, rfl⟩

end Stage

-- An admission, the tokens about it, and how often it is queued.
def Tidy (a : Nat) (x : Admission) (tokens : Multiset Token) (queued : Nat) : Prop :=
  ∃ (st : Stage) (hands : Nat),
    tokens = st.tokens a x.releaseUpstream + replicate hands (.custody a) ∧
    st.Fits x ∧ st.Custody hands queued

namespace Tidy

variable {a queued : Nat} {x : Admission} {t : Token} {st : Stage} {others : Multiset Token}

theorem custody_not_mem (u : Option Nat) : .custody a ∉ st.tokens a u :=
  fun h => nomatch (Stage.tokens_eq_of_mem h).right.left

-- A duty tells the stage.
theorem of_duty (h : Tidy a x ({t} + others) queued) (ht : t.stage = some st) :
    ∃ hands, others = replicate hands (.custody a) ∧ st.tokens a x.releaseUpstream = {t} ∧
      st.Fits x ∧ st.Custody hands queued := by
  have ⟨st', hands, heq, hfits, hcustody⟩ := h
  have hmem : t ∈ st'.tokens a x.releaseUpstream := by
    have hm : t ∈ st'.tokens a x.releaseUpstream + replicate hands (.custody a) :=
      heq ▸ Multiset.mem_add.mpr (.inl (mem_singleton_self t))
    rcases Multiset.mem_add.mp hm with hm | hm
    · exact hm
    · rw [Multiset.eq_of_mem_replicate hm] at ht
      contradiction
  have ⟨hs, hstage, _⟩ := Stage.tokens_eq_of_mem hmem
  obtain rfl : st = st' := Option.some.inj (ht.symm.trans hstage)
  exact ⟨hands, add_left_cancel (hs ▸ heq), hs, hfits, hcustody⟩

theorem of_custody (h : Tidy a x ({.custody a} + others) queued) :
    ∃ st hands, others = st.tokens a x.releaseUpstream + replicate hands (.custody a) ∧
      Stage.Fits st x ∧ Stage.Custody st (hands + 1) queued := by
  have ⟨st, hands, heq, hfits, hcustody⟩ := h
  have hmem : .custody a ∈ replicate hands (Token.custody a) := by
    have hm : .custody a ∈ st.tokens a x.releaseUpstream + replicate hands (.custody a) :=
      heq ▸ Multiset.mem_add.mpr (.inl (mem_singleton_self _))
    exact (Multiset.mem_add.mp hm).resolve_left (custody_not_mem _)
  obtain ⟨hands, rfl⟩ := Nat.exists_eq_succ_of_ne_zero (Multiset.mem_replicate.mp hmem).left
  refine ⟨st, hands, ?_, hfits, hcustody⟩
  rw [Nat.succ_eq_add_one, Multiset.replicate_succ, ← Multiset.singleton_add, add_left_comm] at heq
  exact add_left_cancel heq

end Tidy

-- The admissions, the queue and what threads have taken upon themselves.
structure Places (admissions : List Admission) (queue : List Nat) (tokens : Multiset Token) :
    Prop where
  tidy : ∀ a x, admissions[a]? = some x → Tidy a x (on Token.about tokens a) (queue.count a)
  known : ∀ a, admissions.length ≤ a → on Token.about tokens a = 0 ∧ a ∉ queue
  past : ∀ a, .past a ∈ tokens → a < admissions.length ∧ ∀ u, .handler a u ∉ tokens

namespace Places

variable {admissions : List Admission} {queue queue' : List Nat} {a : Nat} {x : Admission}
variable {held held' rest : Multiset Token} {f : Admission → Admission}

theorem exists_of_token (h : Places admissions queue (held + rest)) (ht : t ∈ held)
    (ha : t.about = some a) : ∃ x, admissions[a]? = some x := by
  have hon : t ∈ on Token.about (held + rest) a :=
    mem_on.mpr ⟨Multiset.mem_add.mpr (.inl ht), ha⟩
  have hlt : a < admissions.length := by
    by_contra hge
    rw [(h.known a (not_lt.mp hge)).left] at hon
    exact notMem_zero t hon
  exact ⟨_, List.getElem?_eq_getElem hlt⟩

theorem exists_of_mem (h : Places admissions queue held) (ha : a ∈ queue) :
    ∃ x, admissions[a]? = some x := by
  have hlt : a < admissions.length := by
    by_contra hge
    exact (h.known a (not_lt.mp hge)).right ha
  exact ⟨_, List.getElem?_eq_getElem hlt⟩

-- Something happens to one admission.
theorem update (h : Places admissions queue (held + rest)) (hx : admissions[a]? = some x)
    (hothers : ∀ b, b ≠ a → on Token.about held' b = on Token.about held b)
    (hpast : ∀ b, .past b ∈ held' → .past b ∈ held)
    (hhandler : ∀ b u, .handler b u ∈ held' → ∃ u', .handler b u' ∈ held)
    (hqueue : ∀ b, b ≠ a → queue'.count b = queue.count b)
    (htidy : Tidy a (f x) (on Token.about held' a + on Token.about rest a) (queue'.count a)) :
    Places (admissions.modify a f) queue' (held' + rest) where
  tidy := by
    intro b y hb
    by_cases hba : b = a
    case pos =>
      subst hba
      rw [List.getElem?_modify_eq, hx] at hb
      cases hb
      rw [on_add]
      exact htidy
    case neg =>
      rw [List.getElem?_modify_ne _ _ (Ne.symm hba)] at hb
      rw [on_add, hothers b hba, hqueue b hba, ← on_add]
      exact h.tidy b y hb
  known := by
    intro b hb
    rw [List.length_modify] at hb
    have hba : b ≠ a := by
      rintro rfl
      have hlt := (List.getElem?_eq_some_iff.mp hx).choose
      omega
    have ⟨hon, hq⟩ := h.known b hb
    refine ⟨by rw [on_add, hothers b hba, ← on_add, hon], fun hm => hq ?_⟩
    rw [← List.count_pos_iff] at hm ⊢
    rwa [hqueue b hba] at hm
  past := by
    intro b hb
    have hb : .past b ∈ held + rest := by
      rcases Multiset.mem_add.mp hb with hb | hb
      · exact Multiset.mem_add.mpr (.inl (hpast b hb))
      · exact Multiset.mem_add.mpr (.inr hb)
    have ⟨hlt, hno⟩ := h.past b hb
    refine ⟨by rwa [List.length_modify], fun u hu => ?_⟩
    rcases Multiset.mem_add.mp hu with hu | hu
    · have ⟨u', hu'⟩ := hhandler b u hu
      exact hno u' (Multiset.mem_add.mpr (.inl hu'))
    · exact hno u (Multiset.mem_add.mpr (.inr hu))

-- Tokens that are about no admission do not matter.
theorem of_on (h : Places admissions queue held)
    (hon : ∀ b, on Token.about held' b = on Token.about held b)
    (hpast : ∀ b, .past b ∈ held' → .past b ∈ held) : Places admissions queue held' where
  tidy := fun b y hb => hon b ▸ h.tidy b y hb
  known := fun b hb => hon b ▸ h.known b hb
  past := by
    intro b hb
    have ⟨hlt, hno⟩ := h.past b (hpast b hb)
    refine ⟨hlt, fun u hu => hno u ?_⟩
    have hm : .handler b u ∈ on Token.about held' b := mem_on.mpr ⟨hu, rfl⟩
    exact (mem_on.mp (hon b ▸ hm)).left

-- Whoever has a duty takes the admission to its next stage.
theorem advance (h : Places admissions queue ({t} + rest)) (ht : t.stage = some st)
    (ha : t.about = some a) (hx : admissions[a]? = some x) (st' : Stage)
    (hst : st' = .handled → st = .handled) (hfits : st.Fits x → st'.Fits (f x))
    (hcustody : ∀ hands, st.Custody hands (queue.count a) → st'.Custody hands (queue'.count a))
    (hqueue : ∀ b, b ≠ a → queue'.count b = queue.count b) :
    Places (admissions.modify a f) queue' (st'.tokens a (f x).releaseUpstream + rest) := by
  have hself : on Token.about {t} a = {t} := by
    rw [on_singleton, if_pos ha]
  have htidy := h.tidy a x hx
  rw [on_add, hself] at htidy
  have ⟨hands, hrest, htokens, hfit, hcust⟩ := htidy.of_duty ht
  have habout : ∀ t' ∈ st'.tokens a (f x).releaseUpstream, t'.about = some a :=
    fun t' ht' => (Stage.tokens_eq_of_mem ht').right.right
  refine h.update hx (fun b hb => ?_) (fun b hb => ?_) (fun b u hu => ?_) hqueue ?_
  · rw [on_singleton, if_neg (by rw [ha]; simpa using Ne.symm hb)]
    exact Multiset.filter_eq_nil.mpr fun t' ht' hc =>
      hb (Option.some.inj (hc.symm.trans (habout t' ht')))
  · exact nomatch habout _ hb
  · obtain rfl : b = a := Option.some.inj (habout _ hu)
    have hhandled : st' = .handled :=
      (Option.some.inj (Stage.tokens_eq_of_mem hu).right.left).symm
    rw [hst hhandled] at htokens
    exact ⟨x.releaseUpstream, by rw [← htokens]; exact mem_singleton_self _⟩
  · refine ⟨st', hands, ?_, hfits hfit, hcustody hands hcust⟩
    rw [hrest, on, Multiset.filter_eq_self.mpr habout]

-- A change of tokens only, or of the queue only.
theorem exchange (h : Places admissions queue (held + rest)) (hx : admissions[a]? = some x)
    (hothers : ∀ b, b ≠ a → on Token.about held' b = on Token.about held b)
    (hpast : ∀ b, .past b ∈ held' → .past b ∈ held)
    (hhandler : ∀ b u, .handler b u ∈ held' → ∃ u', .handler b u' ∈ held)
    (hqueue : ∀ b, b ≠ a → queue'.count b = queue.count b)
    (htidy : Tidy a x (on Token.about held' a + on Token.about rest a) (queue'.count a)) :
    Places admissions queue' (held' + rest) := by
  have hid : admissions.modify a id = admissions := List.modify_id a admissions
  exact hid ▸ h.update (f := id) hx hothers hpast hhandler hqueue htidy

end Places

-- The counters are the numbers of the slots that are held, and within their limits.
structure Counts (cfg : Config) (s : State) : Prop where
  pending : s.pending = s.admissions.countP (·.slot = .pending)
  active : s.active = s.admissions.countP (·.slot = .active)
  burst : s.burstSCTP = s.admissions.countP (·.burstSCTP)
  pendingLimit : s.pending ≤ cfg.maxPendingHandshakes
  limit : s.pending + s.active ≤ cfg.maxSessions
  burstLimit : s.burstSCTP ≤ clientBurstSCTPLimit

-- An upstream that was acquired is held by one thread or kept by one admission until it is
-- released.
def Upstreams (admissions : List Admission) (acquired : Nat) (released : List Nat)
    (tokens : Multiset Token) : Prop :=
  ∀ q, released.count q + admissions.countP (·.releaseUpstream = some q) +
    tokens.count (.holding q) = if q < acquired then 1 else 0

structure Closing (s : State) (tokens : Multiset Token) : Prop where
  drained : s.drained → s.cancelled ∧ s.queue = []
  cancelled : .cancelled ∈ tokens → s.cancelled
  closer : .drained ∈ tokens → s.drained
  closed : s.lifecycle = .closed → s.drained

structure Inv (cfg : Config) (s : State) (tokens : Multiset Token) : Prop where
  places : Places s.admissions s.queue tokens
  counts : Counts cfg s
  upstreams : Upstreams s.admissions s.acquired s.released tokens
  closing : Closing s tokens

theorem inv_init (cfg : Config) : Inv cfg .init 0 where
  places := ⟨fun a x h => by simp [State.init] at h, fun a _ => ⟨rfl, List.not_mem_nil⟩,
    fun a h => absurd h (notMem_zero _)⟩
  counts := ⟨rfl, rfl, rfl, Nat.zero_le _, Nat.zero_le _, Nat.zero_le _⟩
  upstreams := fun q => by simp [State.init]
  closing := ⟨nofun, fun h => absurd h (notMem_zero _),
    fun h => absurd h (notMem_zero _), nofun⟩

end GizClaw.Gateway

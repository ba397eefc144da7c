import GizClaw.Gateway.Theorems.Admission

-- What each action needs to hold, and what it leaves its thread with.

namespace GizClaw.Gateway

open Interleaving (Program)
open Threads (on on_add on_singleton on_zero mem_on)
open Multiset (count_add mem_singleton_self notMem_zero count_singleton singleton_add)
open Token (about)

variable {cfg : Config} {s s' : State} {a q : Nat} {x : Admission} {t : Token} {st : Stage}
variable {held held' rest tokens tokens' : Multiset Token}
variable {admissions : List Admission} {queue : List Nat} {f : Admission → Admission}
variable {new : Phase} {acquired : Nat} {released : List Nat}

attribute [local simp] Stage.tokens Admission.giveBack State.reserve Admission.new

-- A session starts with what the accept loop has about its admission.
def Entry : Op → Multiset Token → Prop
  | .session a, tokens => ∃ upstream, tokens = {.session a upstream}
  | _, tokens => tokens = 0

abbrev Owns {α : Type} (cfg : Config) (Q : α → Multiset Token → Prop) (held : Multiset Token)
    (p : Call α) : Prop :=
  Threads.Owns (system cfg) (Inv cfg) Entry Q held p

abbrev Leaves {α : Type} (cfg : Config) (left held : Multiset Token) (p : Call α) : Prop :=
  Owns cfg (fun _ rest => rest = left) held p

theorem owns_act {a : Act} {Q : Reply a → Multiset Token → Prop} (hforks : ∀ r, forks a r = [])
    (h : ∀ s rest ch r s', Inv cfg s (held + rest) → perform cfg ch a s = some (r, s') →
      ∃ held', Inv cfg s' (held' + rest) ∧ Q r held') : Owns cfg Q held (act a) := by
  refine .act hforks fun s rest r s' hinv ⟨ch, hp⟩ => ?_
  exact h s rest ch r s' hinv hp

-- The parts of the state that the invariant is about.
theorem Inv.congr (h : Inv cfg s tokens) (loop : Loop) (sessions : Nat) :
    Inv cfg { s with loop := loop, sessions := sessions } tokens where
  places := h.places
  counts := { h.counts with }
  upstreams := h.upstreams
  closing := { h.closing with }

theorem owns_neutral {a : Act} (hforks : ∀ r, forks a r = [])
    (h : ∀ s ch r s', perform cfg ch a s = some (r, s') →
      ∃ loop sessions, s' = { s with loop := loop, sessions := sessions }) :
    Leaves cfg held held (act a) := by
  refine owns_act hforks fun s rest ch r s' hinv hp => ?_
  obtain ⟨loop, sessions, rfl⟩ := h s ch r s' hp
  exact ⟨held, hinv.congr loop sessions, rfl⟩

section Parts

theorem Closing.congr (h : Closing s tokens) (hcancelled : s.cancelled → s'.cancelled)
    (hqueue : s.queue = [] → s.cancelled → s'.queue = []) (hdrained : s'.drained = s.drained)
    (hlifecycle : s'.lifecycle = s.lifecycle)
    (htokens : ∀ t ∈ tokens', t = .cancelled ∨ t = .drained → t ∈ tokens) : Closing s' tokens' where
  drained := by
    intro hd
    have ⟨hc, hq⟩ := h.drained (hdrained ▸ hd)
    exact ⟨hcancelled hc, hqueue hq hc⟩
  cancelled := fun ht => hcancelled (h.cancelled (htokens _ ht (.inl rfl)))
  closer := fun ht => hdrained ▸ h.closer (htokens _ ht (.inr rfl))
  closed := fun hl => hdrained ▸ h.closed (hlifecycle ▸ hl)

-- Tokens that tell nothing about the gateway.
theorem mem_of_ne (h : ∀ t ∈ held', t ≠ .cancelled ∧ t ≠ .drained) :
    ∀ t ∈ held' + rest, t = .cancelled ∨ t = .drained → t ∈ held + rest := by
  intro t ht hor
  rcases Multiset.mem_add.mp ht with ht | ht
  · exact absurd hor (not_or.mpr (h t ht))
  · exact Multiset.mem_add.mpr (.inr ht)

theorem on_aside (ht : t.about = none) : on about ({t} + rest) a = on about rest a := by
  rw [on_add, on_singleton, if_neg (by simp [ht]), zero_add]

-- Tokens that are about no admission come and go.
theorem Places.forget (ht : t.about = none) (h : Places admissions queue ({t} + rest)) :
    Places admissions queue rest :=
  h.of_on (fun _ => (on_aside ht).symm) fun _ hb => Multiset.mem_add.mpr (.inr hb)

theorem Places.note (h : Places admissions queue rest) (ht : t.about = none)
    (hpast : ∀ b, t ≠ .past b) : Places admissions queue ({t} + rest) := by
  refine h.of_on (fun _ => on_aside ht) fun b hb => ?_
  exact (Multiset.mem_add.mp hb).resolve_left fun hb => hpast b (Multiset.mem_singleton.mp hb).symm

-- Nothing happens to the slots.
theorem Counts.congr (h : Counts cfg s) (hadmissions : s'.admissions = s.admissions.modify a f)
    (hslot : ∀ x, (f x).slot = x.slot) (hbursts : ∀ x, (f x).burstSCTP = x.burstSCTP)
    (hpending : s'.pending = s.pending) (hactive : s'.active = s.active)
    (hburst : s'.burstSCTP = s.burstSCTP) : Counts cfg s' where
  pending := by
    rw [hpending, hadmissions, Tally.countP_modify_of_eq (by simp [hslot])]
    exact h.pending
  active := by
    rw [hactive, hadmissions, Tally.countP_modify_of_eq (by simp [hslot])]
    exact h.active
  burst := by
    rw [hburst, hadmissions, Tally.countP_modify_of_eq (by simp [hbursts])]
    exact h.burst
  pendingLimit := hpending ▸ h.pendingLimit
  limit := hpending ▸ hactive ▸ h.limit
  burstLimit := hburst ▸ h.burstLimit

theorem Counts.same (h : Counts cfg s) (hadmissions : s'.admissions = s.admissions)
    (hpending : s'.pending = s.pending) (hactive : s'.active = s.active)
    (hburst : s'.burstSCTP = s.burstSCTP) : Counts cfg s' :=
  h.congr (f := id) (a := 0) (hadmissions.trans (List.modify_id 0 _).symm) (fun _ => rfl)
    (fun _ => rfl) hpending hactive hburst

theorem Upstreams.congr (h : Upstreams admissions acquired released tokens)
    (hf : ∀ x, (f x).releaseUpstream = x.releaseUpstream)
    (htokens : ∀ q, tokens'.count (.holding q) = tokens.count (.holding q)) :
    Upstreams (admissions.modify a f) acquired released tokens' := by
  intro q
  rw [Tally.countP_modify_of_eq (by simp [hf]), htokens]
  exact h q

theorem Stage.tokens_count_holding (u : Option Nat) : (st.tokens a u).count (.holding q) = 0 := by
  cases st <;> simp

theorem Stage.tokens_ne (u : Option Nat) : ∀ t ∈ st.tokens a u, t ≠ .cancelled ∧ t ≠ .drained := by
  intro t ht
  have habout := (Stage.tokens_eq_of_mem ht).right.right
  constructor <;> rintro rfl <;> contradiction

theorem Token.ne_of_stage (ht : t.stage = some st) : t ≠ .holding q := by
  cases t <;> simp_all [Token.stage]

end Parts

section Duties

-- An admission, the queue and the counters change.
def State.become (s : State) (a : Nat) (f : Admission → Admission) (queue : List Nat)
    (pending active burstSCTP : Nat) : State :=
  { s.update a f with
    queue := queue
    pending := pending
    active := active
    burstSCTP := burstSCTP }

-- Whoever has a duty does it, and takes no upstream.
theorem Inv.advance (h : Inv cfg s ({t} + rest)) (ht : t.stage = some st) (ha : t.about = some a)
    (st' : Stage) (hx : s.admissions[a]? = some x) (hst : st' = .handled → st = .handled)
    (hfits : st.Fits x → st'.Fits (f x))
    (hcustody : ∀ hands, st.Custody hands (s.queue.count a) → st'.Custody hands (queue.count a))
    (hqueue : ∀ b, b ≠ a → queue.count b = s.queue.count b) (hempty : s.queue = [] → queue = [])
    (hcounts : Counts cfg (s.become a f queue pending active burst))
    (hf : ∀ x, (f x).releaseUpstream = x.releaseUpstream) :
    Inv cfg (s.become a f queue pending active burst)
      (st'.tokens a (f x).releaseUpstream + rest) where
  places := h.places.advance ht ha hx st' hst hfits hcustody hqueue
  counts := hcounts
  upstreams := by
    refine h.upstreams.congr hf fun q => ?_
    have hne := Token.ne_of_stage (q := q) ht
    rw [count_add, count_add, Stage.tokens_count_holding,
      count_singleton, if_neg (Ne.symm hne)]
  closing := h.closing.congr id (fun hq _ => hempty hq) rfl rfl (mem_of_ne (Stage.tokens_ne _))

theorem Inv.record (h : Inv cfg s ({t} + rest)) (ha : t.about = some a) :
    ∃ x, s.admissions[a]? = some x :=
  h.places.exists_of_token (mem_singleton_self t) ha

-- The record of an admission whose duty one has.
theorem Inv.fits (h : Inv cfg s ({t} + rest)) (ht : t.stage = some st) (ha : t.about = some a)
    (hx : s.admissions[a]? = some x) : st.Fits x ∧ st.tokens a x.releaseUpstream = {t} := by
  have htidy := h.places.tidy a x hx
  rw [on_add, on_singleton, if_pos ha] at htidy
  have ⟨_, _, htokens, hfits, _⟩ := htidy.of_duty ht
  exact ⟨hfits, htokens⟩

theorem owns_stopTimer : Leaves cfg {.activating a} {.activating a} (act (.stopTimer a)) := by
  refine owns_act (fun _ => rfl) fun s rest ch r s' hinv hp => ?_
  cases hp
  have ⟨x, hx⟩ := hinv.record rfl
  exact ⟨_, hinv.advance (f := fun x => { x with armed := false }) rfl rfl .activating hx id
    (fun h => { h with unarmed := nofun }) (fun _ => id) (fun _ _ => rfl) id
    (hinv.counts.congr rfl (fun _ => rfl) (fun _ => rfl) rfl rfl rfl) fun _ => rfl, rfl⟩

theorem owns_remove : Leaves cfg 0 {.removing a} (act (.remove a)) := by
  refine owns_act (fun _ => rfl) fun s rest ch r s' hinv hp => ?_
  cases hp
  have ⟨x, hx⟩ := hinv.record rfl
  have hcount : (s.queue.erase a).count a = s.queue.count a - 1 := List.count_erase_self
  refine ⟨_, hinv.advance (f := fun x => { x with removed := true }) rfl rfl .done hx
    nofun ?_ ?_
    (fun b hb => List.count_erase_of_ne hb) (fun hq => by rw [hq]; rfl) ?_ fun _ => rfl, rfl⟩
  · exact fun h => { h with
      unarmed := nofun, emptied := fun _ => h.emptied (.inl rfl), removed := (absurd rfl ·) }
  · intro hands hc
    have hc : hands + s.queue.count a ≤ 1 := hc
    exact ⟨by omega, by omega⟩
  · exact hinv.counts.congr rfl (fun _ => rfl) (fun _ => rfl) rfl rfl rfl

section

variable (h : Counts cfg s) (hx : s.admissions[a]? = some x)
include h hx

-- A slot is given back or taken over.
theorem Counts.become {pending active burst : Nat}
    (hpending : pending + (if x.slot = .pending then 1 else 0) =
      s.pending + (if (f x).slot = .pending then 1 else 0))
    (hactive : active + (if x.slot = .active then 1 else 0) =
      s.active + (if (f x).slot = .active then 1 else 0))
    (hburst : burst + (if x.burstSCTP then 1 else 0) =
      s.burstSCTP + (if (f x).burstSCTP then 1 else 0))
    (hlimit : pending ≤ s.pending ∧ pending + active ≤ s.pending + s.active ∧ burst ≤ s.burstSCTP) :
    Counts cfg (s.become a f queue pending active burst) where
  pending := by
    have hcount := Tally.countP_modify (p := fun x => x.slot = .pending) (f := f) hx
    have hold := h.pending
    simp only [decide_eq_true_eq] at hcount
    simp only [State.become, State.update]
    omega
  active := by
    have hcount := Tally.countP_modify (p := fun x => x.slot = .active) (f := f) hx
    have hold := h.active
    simp only [decide_eq_true_eq] at hcount
    simp only [State.become, State.update]
    omega
  burst := by
    have hcount := Tally.countP_modify (p := fun x => x.burstSCTP) (f := f) hx
    have hold := h.burst
    simp only [State.become, State.update]
    omega
  pendingLimit := hlimit.left.trans h.pendingLimit
  limit := hlimit.right.left.trans h.limit
  burstLimit := hlimit.right.right.trans h.burstLimit

theorem Counts.slot_pos :
    (x.slot = .pending → 0 < s.pending) ∧ (x.slot = .active → 0 < s.active) ∧
      (x.burstSCTP → 0 < s.burstSCTP) := by
  have hm := List.mem_of_getElem? hx
  rw [h.pending, h.active, h.burst]
  exact ⟨fun hs => List.countP_pos_iff.mpr ⟨x, hm, by simp [hs]⟩,
    fun hs => List.countP_pos_iff.mpr ⟨x, hm, by simp [hs]⟩,
    fun hs => List.countP_pos_iff.mpr ⟨x, hm, hs⟩⟩

theorem Counts.releaseBurst : s.releaseBurst a + (if x.burstSCTP then 1 else 0) = s.burstSCTP := by
  have ⟨_, _, hpos⟩ := h.slot_pos hx
  simp only [State.releaseBurst, hx, Option.any_some]
  split
  case isTrue hb => exact Nat.sub_add_cancel (hpos hb)
  case isFalse => rfl

end

-- The record after its slot was given back.
theorem Stage.Fits.giveBack {st' : Stage} (h : st.Fits x) (hslot : st.slot ≠ .free)
    (hphase : st'.phase = st.phase) (hfree : st'.slot = .free) (hwaiting : st.phase ≠ .waiting)
    (hst : st ≠ .done) (hst' : st' ≠ .handled ∧ st' ≠ .removing ∧ st' ≠ .done) :
    st'.Fits x.giveBack where
  phase := h.phase.trans hphase.symm
  slot := hfree.symm
  unarmed := fun he => absurd he hst'.left
  emptied := fun he => (he.elim hst'.right.left hst'.right.right).elim
  removed := fun _ => h.removed hst
  promotions := h.promotions
  unpromoted := fun he => absurd (hphase ▸ he) hwaiting
  returns := by
    simp [h.returns, hslot, hfree]
  burst := fun _ => rfl

theorem owns_unpend : Leaves cfg {.emptying a} {.unpending a} (act (.unpend a)) := by
  refine owns_act (fun _ => rfl) fun s rest ch r s' hinv hp => ?_
  cases hp
  have ⟨x, hx⟩ := hinv.record rfl
  have hslot : x.slot = .pending := (hinv.fits rfl rfl hx).left.slot
  have hpos := (hinv.counts.slot_pos hx).left hslot
  have hburst := hinv.counts.releaseBurst hx
  have hcounts : Counts cfg
      (s.become a .giveBack s.queue (s.pending - 1) s.active (s.releaseBurst a)) := by
    refine hinv.counts.become hx ?_ ?_ hburst (by omega)
    · simp only [hslot, Admission.giveBack, if_true, reduceCtorEq, if_false]
      omega
    · simp [hslot]
  refine ⟨_, hinv.advance rfl rfl .emptying hx nofun ?_ (fun _ => id)
    (fun _ _ => rfl) id hcounts
    fun _ => rfl, rfl⟩
  exact fun h => h.giveBack nofun rfl rfl nofun nofun
    ⟨nofun, nofun, nofun⟩

theorem owns_deactivate : Leaves cfg {.vacating a} {.deactivating a} (act (.deactivate a)) := by
  refine owns_act (fun _ => rfl) fun s rest ch r s' hinv hp => ?_
  cases hp
  have ⟨x, hx⟩ := hinv.record rfl
  have hslot : x.slot = .active := (hinv.fits rfl rfl hx).left.slot
  have hpos := (hinv.counts.slot_pos hx).right.left hslot
  have hburst := hinv.counts.releaseBurst hx
  have hcounts : Counts cfg
      (s.become a .giveBack s.queue s.pending (s.active - 1) (s.releaseBurst a)) := by
    refine hinv.counts.become hx ?_ ?_ hburst (by omega)
    · simp [hslot]
    · simp only [hslot, Admission.giveBack, if_true, reduceCtorEq, if_false]
      omega
  refine ⟨_, hinv.advance rfl rfl .vacating hx nofun ?_ (fun _ => id)
    (fun _ _ => rfl) id hcounts
    fun _ => rfl, rfl⟩
  exact fun h => h.giveBack nofun rfl rfl nofun nofun
    ⟨nofun, nofun, nofun⟩

theorem owns_activate : Owns cfg (fun _ left => ∃ u, left = {.session a u}) {.activating a}
    (act (.activate a)) := by
  refine owns_act (fun _ => rfl) fun s rest ch r s' hinv hp => ?_
  cases hp
  have ⟨x, hx⟩ := hinv.record rfl
  have hslot : x.slot = .pending := (hinv.fits rfl rfl hx).left.slot
  have hpos := (hinv.counts.slot_pos hx).left hslot
  have hcounts :
      Counts cfg (s.become a (fun x => { x with slot := .active }) s.queue (s.pending - 1)
      (s.active + 1) s.burstSCTP) := by
    refine hinv.counts.become hx ?_ ?_ rfl (by omega)
    · simp only [hslot, if_true, reduceCtorEq, if_false]
      omega
    · simp [hslot]
  refine ⟨_, hinv.advance rfl rfl .session hx nofun ?_ (fun _ => id)
    (fun _ _ => rfl) id hcounts
    fun _ => rfl, _, rfl⟩
  exact fun h => { h with
    slot := rfl
    unarmed := nofun
    emptied := (·.elim nofun nofun)
    removed := fun _ => h.removed nofun
    burst := nofun }

end Duties

section Swaps

theorem Stage.Fits.swap {st' : Stage} (h : st.Fits x) (hphase : st'.phase = new)
    (hslot : st'.slot = st.slot) (hfree : st.slot ≠ .free) (hnew : new ≠ .waiting)
    (hpromoted : new = .promoted → st.phase = .waiting) (hst : st ≠ .done)
    (hst' : st' ≠ .handled ∧ st' ≠ .removing ∧ st' ≠ .done) : st'.Fits (x.swap new) where
  phase := hphase.symm
  slot := h.slot.trans hslot.symm
  unarmed := fun he => absurd he hst'.left
  emptied := fun he => (he.elim hst'.right.left hst'.right.right).elim
  removed := fun _ => h.removed hst
  promotions := by
    have hle := h.promotions
    simp only [Admission.swap]
    split
    case isTrue hp => rw [h.unpromoted (hpromoted hp)]
    case isFalse => exact hle
  unpromoted := fun he => absurd (hphase ▸ he) hnew
  returns := by
    rw [hslot]
    exact h.returns
  burst := fun he => absurd (hslot ▸ he) hfree

-- An action of a thread that changes neither the counters nor what is kept of upstreams.
theorem Inv.rearrange (h : Inv cfg s (held + rest))
    (hplaces : Places (s.admissions.modify a f) queue (held' + rest))
    (hslot : ∀ x, (f x).slot = x.slot) (hburst : ∀ x, (f x).burstSCTP = x.burstSCTP)
    (hupstream : ∀ x, (f x).releaseUpstream = x.releaseUpstream)
    (hempty : s.queue = [] → s.cancelled → queue = [])
    (hheld : ∀ q, held'.count (.holding q) = held.count (.holding q))
    (hmem : ∀ t ∈ held', t = .cancelled ∨ t = .drained → t ∈ held) :
    Inv cfg { s.update a f with queue := queue } (held' + rest) where
  places := hplaces
  counts := h.counts.congr rfl hslot hburst rfl rfl rfl
  upstreams := by
    refine h.upstreams.congr hupstream fun q => ?_
    rw [count_add, count_add, hheld]
  closing := by
    refine h.closing.congr id hempty rfl rfl fun t ht hor => ?_
    rcases Multiset.mem_add.mp ht with ht | ht
    · exact Multiset.mem_add.mpr (.inl (hmem t ht hor))
    · exact Multiset.mem_add.mpr (.inr ht)

-- A swap, for whoever may make it. What it does to the queue is up to others.
theorem Inv.swap (h : Inv cfg s (held + rest)) (st' : Stage) (u : Option Nat)
    (hplaces : Places (s.admissions.modify a (.swap new)) s.queue (st'.tokens a u + rest))
    (hheld : ∀ q, held.count (.holding q) = 0) :
    Inv cfg (s.update a (.swap new)) (st'.tokens a u + rest) := by
  refine h.rearrange hplaces (fun _ => rfl) (fun _ => rfl) (fun _ => rfl) (fun hq _ => hq)
    (fun q => ?_) fun t ht hor => absurd hor (not_or.mpr (Stage.tokens_ne u t ht))
  rw [Stage.tokens_count_holding, hheld]

-- Tokens that are given up.
theorem Inv.drop (h : Inv cfg s (held + rest)) (hplaces : Places s.admissions s.queue rest)
    (hheld : ∀ q, held.count (.holding q) = 0) : Inv cfg s rest where
  places := hplaces
  counts := h.counts
  upstreams := by
    intro q
    have hq := h.upstreams q
    rwa [count_add, hheld, Nat.zero_add] at hq
  closing := h.closing.congr id (fun hq _ => hq) rfl rfl
    fun _ ht _ => Multiset.mem_add.mpr (.inr ht)

theorem State.compareAndSwap_eq (hx : s.admissions[a]? = some x) :
    s.compareAndSwap a old new =
      if x.phase = old then (true, s.update a (.swap new)) else (false, s) := by
  simp [State.compareAndSwap, State.phase, hx]

-- Whoever has custody of an admission learns whether it still waits.
theorem Tidy.of_waiting (h : Tidy a x ({.custody a} + tokens) q) (hp : x.phase = .waiting) :
    tokens = 0 ∧ q = 0 ∧ Stage.waiting.Fits x := by
  have ⟨st, hands, heq, hfits, hcustody⟩ := h.of_custody
  have hphase : st.phase = .waiting := hfits.phase.symm.trans hp
  cases st <;> simp only [Stage.phase, reduceCtorEq] at hphase
  case handled => exact absurd hcustody.left (Nat.succ_ne_zero hands)
  case waiting =>
    have hcustody : hands + 1 + q = 1 := hcustody
    obtain ⟨rfl, rfl⟩ : hands = 0 ∧ q = 0 := by omega
    exact ⟨heq, rfl, hfits⟩

theorem Tidy.of_gone (h : Tidy a x ({.custody a} + tokens) q) (hp : x.phase ≠ .waiting) :
    Tidy a x tokens q := by
  have ⟨st, hands, heq, hfits, hcustody⟩ := h.of_custody
  refine ⟨st, hands, heq, hfits, ?_⟩
  have hphase : st.phase ≠ .waiting := fun he => hp (hfits.phase.trans he)
  cases st <;> simp only [Stage.phase, ne_eq, not_true_eq_false] at hphase
  all_goals
    simp only [Stage.Custody] at hcustody ⊢
    omega

theorem on_self (ha : t.about = some a) : on about {t} a = {t} := by
  rw [on_singleton, if_pos ha]

theorem on_other (ha : t.about = some a) (hb : b ≠ a) : on about {t} b = 0 := by
  rw [on_singleton, ha, if_neg (by simpa using Ne.symm hb)]

section

variable (h : Places s.admissions s.queue ({.custody a} + rest)) (hx : s.admissions[a]? = some x)
include h hx

-- Custody is given up once the admission does not wait any more.
theorem Places.drop_custody (hp : x.phase ≠ .waiting) : Places s.admissions s.queue rest := by
  have htidy := h.tidy a x hx
  rw [on_add, on_self rfl] at htidy
  have hplaces : Places s.admissions s.queue (0 + rest) := by
    refine h.exchange hx (fun b hb => ?_) (fun b hb => ?_) (fun b u hu => ?_) (fun _ _ => rfl) ?_
    · rw [on_other rfl hb]
      rfl
    · exact absurd hb (notMem_zero _)
    · exact absurd hu (notMem_zero _)
    · rw [on_zero, zero_add]
      exact htidy.of_gone hp
  rwa [zero_add] at hplaces

-- Whoever has custody of a waiting admission takes it to its next stage.
theorem Places.swap_custody (hp : x.phase = .waiting) (st' : Stage)
    (hst : st' = .activating ∧ new = .promoted ∨ st' = .unpending ∧ new = .released) :
    Places (s.admissions.modify a (.swap new)) s.queue (st'.tokens a x.releaseUpstream + rest) := by
  have htidy := h.tidy a x hx
  rw [on_add, on_self rfl] at htidy
  obtain ⟨hrest, hqueue, hfits⟩ := htidy.of_waiting hp
  have habout : ∀ t ∈ st'.tokens a x.releaseUpstream, t.about = some a :=
    fun t ht => (Stage.tokens_eq_of_mem ht).right.right
  refine h.update hx (fun b hb => ?_) (fun b hb => ?_) (fun b u hu => ?_) (fun _ _ => rfl) ?_
  · rw [on_other rfl hb]
    exact Multiset.filter_eq_nil.mpr fun t ht hc =>
      hb (Option.some.inj (hc.symm.trans (habout t ht)))
  · cases habout _ hb
  · have hhandled := (Stage.tokens_eq_of_mem hu).right.left
    rcases hst with ⟨rfl, _⟩ | ⟨rfl, _⟩ <;> cases hhandled
  · rw [hrest, hqueue, add_zero, on, Multiset.filter_eq_self.mpr habout]
    rcases hst with ⟨rfl, rfl⟩ | ⟨rfl, rfl⟩
    · exact ⟨.activating, 0, rfl, hfits.swap rfl rfl (by rintro ⟨⟩) (by rintro ⟨⟩)
        (fun _ => rfl) (by rintro ⟨⟩)
        (by simp), rfl, rfl⟩
    · exact ⟨.unpending, 0, rfl, hfits.swap rfl rfl (by rintro ⟨⟩) (by rintro ⟨⟩)
        (by rintro ⟨⟩) (by rintro ⟨⟩) (by simp), Nat.zero_le 1⟩

end

-- The callback of a timer has no custody, which stays where it is.
theorem Places.swap_past (h : Places s.admissions s.queue ({.past a} + rest))
    (hx : s.admissions[a]? = some x) (hp : x.phase = .waiting) :
    Places (s.admissions.modify a (.swap .released)) s.queue ({.unpending a} + rest) := by
  have htidy := h.tidy a x hx
  have hno := (h.past a (Multiset.mem_add.mpr (.inl (mem_singleton_self _)))).right
  rw [on_aside rfl] at htidy
  have ⟨st, hands, heq, hfits, hcustody⟩ := htidy
  have hphase : st.phase = .waiting := hfits.phase.symm.trans hp
  refine h.update hx (fun b hb => ?_) (fun b hb => ?_) (fun b u hu => ?_) (fun _ _ => rfl) ?_
  · rw [on_other rfl hb, on_singleton, if_neg nofun]
  · exact nomatch Multiset.mem_singleton.mp hb
  · exact nomatch Multiset.mem_singleton.mp hu
  · rw [on_self rfl]
    cases st <;> simp only [Stage.phase, reduceCtorEq] at hphase
    case handled =>
      have hmem : .handler a x.releaseUpstream ∈ on about rest a := by
        rw [heq]
        exact Multiset.mem_add.mpr (.inl (mem_singleton_self _))
      exact absurd (Multiset.mem_add.mpr (.inr (mem_on.mp hmem).left)) (hno _)
    case waiting =>
      refine ⟨.unpending, hands, ?_, hfits.swap rfl rfl nofun nofun nofun
        nofun ⟨nofun, nofun, nofun⟩, hcustody.le⟩
      rw [heq]
      exact congrArg _ (zero_add _)

-- Who may release an admission that waits.
inductive Releases (a : Nat) : Multiset Token → Prop
  | handler (upstream : Option Nat) : Releases a {.handler a upstream}
  | custody : Releases a {.custody a}
  | timer : Releases a {.past a}

theorem owns_release_waiting (hr : Releases a held) :
    Owns cfg (fun swapped left => left = if swapped then {.unpending a} else 0) held
      (act (.compareAndSwap a .waiting .released)) := by
  refine owns_act (fun _ => rfl) fun s rest ch r s' hinv hp => ?_
  have hcas : (r, s') = s.compareAndSwap a .waiting .released := (Option.some.inj hp).symm
  have ⟨x, hx⟩ : ∃ x, s.admissions[a]? = some x := by
    cases hr
    case handler u | custody => exact hinv.record rfl
    case timer =>
      have hlt :=
          (hinv.places.past a (Multiset.mem_add.mpr (.inl (mem_singleton_self _)))).left
      exact ⟨_, List.getElem?_eq_getElem hlt⟩
  have hheld : ∀ q, held.count (.holding q) = 0 := by
    intro q
    cases hr <;> simp
  rw [State.compareAndSwap_eq hx] at hcas
  split at hcas
  case isTrue hw =>
    cases hcas
    refine ⟨_, hinv.swap .unpending x.releaseUpstream ?_ hheld, rfl⟩
    cases hr
    case handler =>
      exact hinv.places.advance rfl rfl hx .unpending nofun
        (fun h => h.swap rfl rfl nofun
        nofun nofun nofun ⟨nofun, nofun, nofun⟩)
        (fun hands hc => by rw [hc.left, hc.right]; exact Nat.zero_le 1) fun _ _ => rfl
    case custody => exact hinv.places.swap_custody hx hw .unpending (.inr ⟨rfl, rfl⟩)
    case timer => exact hinv.places.swap_past hx hw
  case isFalse hw =>
    cases hcas
    refine ⟨0, ?_, rfl⟩
    rw [zero_add]
    refine hinv.drop ?_ hheld
    cases hr
    case handler => exact absurd (hinv.fits rfl rfl hx).left.phase hw
    case custody => exact hinv.places.drop_custody hx hw
    case timer => exact hinv.places.forget rfl

theorem owns_promote_waiting :
    Owns cfg (fun swapped left => left = if swapped then {.activating a} else 0) {.custody a}
      (act (.compareAndSwap a .waiting .promoted)) := by
  refine owns_act (fun _ => rfl) fun s rest ch r s' hinv hp => ?_
  have hcas : (r, s') = s.compareAndSwap a .waiting .promoted := (Option.some.inj hp).symm
  have ⟨x, hx⟩ := hinv.record rfl
  have hheld : ∀ q, ({.custody a} : Multiset Token).count (.holding q) = 0 := by simp
  rw [State.compareAndSwap_eq hx] at hcas
  split at hcas
  case isTrue hw =>
    cases hcas
    exact ⟨_, hinv.swap .activating x.releaseUpstream
      (hinv.places.swap_custody hx hw .activating (.inl ⟨rfl, rfl⟩)) hheld, rfl⟩
  case isFalse hw =>
    cases hcas
    refine ⟨0, ?_, rfl⟩
    rw [zero_add]
    exact hinv.drop (hinv.places.drop_custody hx hw) hheld

-- Nobody else ends a session.
theorem owns_release_promoted (u : Option Nat) :
    Owns cfg (fun swapped left => swapped = true ∧ left = {.deactivating a}) {.session a u}
      (act (.compareAndSwap a .promoted .released)) := by
  refine owns_act (fun _ => rfl) fun s rest ch r s' hinv hp => ?_
  have hcas : (r, s') = s.compareAndSwap a .promoted .released := (Option.some.inj hp).symm
  have ⟨x, hx⟩ := hinv.record rfl
  have hphase : x.phase = .promoted := (hinv.fits rfl rfl hx).left.phase
  rw [State.compareAndSwap_eq hx, if_pos hphase] at hcas
  cases hcas
  refine ⟨_, hinv.swap .deactivating x.releaseUpstream ?_ (by simp), rfl, rfl⟩
  exact hinv.places.advance rfl rfl hx .deactivating nofun
    (fun h => h.swap rfl rfl nofun
    nofun nofun nofun ⟨nofun, nofun, nofun⟩) (fun _ => id)
    fun _ _ => rfl

end Swaps

section Acquisitions

def hold : Option Nat → Multiset Token
  | some q => {.holding q}
  | none => 0

theorem count_hold (u : Option Nat) :
    (hold u).count (.holding q) = if u = some q then 1 else 0 := by
  cases u
  case none => rfl
  case some => simp [hold, count_singleton, eq_comm]

theorem hold_ne (h : t ∈ hold u) : t ≠ .cancelled ∧ t ≠ .drained := by
  cases u
  case none => exact absurd h (notMem_zero t)
  case some => cases Multiset.mem_singleton.mp h; exact ⟨nofun, nofun⟩

-- What is held does not matter to the places of admissions.
theorem Places.of_hold (u : Option Nat) (h : Places admissions queue rest) :
    Places admissions queue (hold u + rest) := by
  cases u
  case none => rwa [hold, zero_add]
  case some => exact h.note rfl fun _ => nofun

namespace Upstreams

theorem acquire (h : Upstreams admissions acquired released rest) :
    Upstreams admissions (acquired + 1) released (hold (some acquired) + rest) := by
  intro q
  have hq := h q
  simp only [count_add, count_hold, Option.some.injEq]
  by_cases hlt : q < acquired
  case pos =>
    rw [if_pos hlt] at hq
    rw [if_neg (by omega), if_pos (by omega), zero_add]
    exact hq
  case neg =>
    rw [if_neg hlt] at hq
    split <;> split <;> omega

theorem release (h : Upstreams admissions acquired released ({.holding q} + rest)) :
    Upstreams admissions acquired (released ++ [q]) rest := by
  intro q'
  have hq := h q'
  simp only [count_add, count_singleton, Token.holding.injEq] at hq
  simp only [List.count_append, List.count_singleton, beq_iff_eq, eq_comm (a := q)]
  omega

theorem take (h : Upstreams admissions acquired released ({t} + rest)) (ht : t.stage = some st)
    (hx : admissions[a]? = some x) (st' : Stage) :
    Upstreams (admissions.modify a fun x => { x with releaseUpstream := none }) acquired released
      (st'.tokens a none + hold x.releaseUpstream + rest) := by
  intro q
  have hq := h q
  have hcount := Tally.countP_modify (p := fun x => x.releaseUpstream = some q)
    (f := fun x => { x with releaseUpstream := none }) hx
  have hne := Token.ne_of_stage (q := q) ht
  simp only [decide_eq_true_eq, reduceCtorEq, if_false] at hcount
  rw [count_add, count_singleton, if_neg (Ne.symm hne)] at hq
  rw [count_add, count_add, Stage.tokens_count_holding, count_hold]
  omega

theorem set (h : Upstreams admissions acquired released ({t} + ({.holding q} + rest)))
    (ht : t.stage = some st) (hx : admissions[a]? = some x) (hnone : x.releaseUpstream = none)
    (st' : Stage) :
    Upstreams (admissions.modify a fun x => { x with releaseUpstream := some q }) acquired released
      (st'.tokens a (some q) + rest) := by
  intro q'
  have hq := h q'
  have hcount := Tally.countP_modify (p := fun x => x.releaseUpstream = some q')
    (f := fun x => { x with releaseUpstream := some q }) hx
  have hne := Token.ne_of_stage (q := q') ht
  simp only [hnone, decide_eq_true_eq, reduceCtorEq, if_false, Option.some.injEq] at hcount
  simp only [count_add, count_singleton, if_neg (Ne.symm hne),
    Token.holding.injEq, eq_comm (a := q')] at hq
  rw [count_add, Stage.tokens_count_holding]
  omega

end Upstreams

theorem owns_acquire : Owns cfg (fun u left => left = hold u) 0 (act .acquire) := by
  refine owns_act (fun _ => rfl) fun s rest ch r s' hinv hp => ?_
  simp only [perform] at hp
  split at hp
  case isFalse =>
    cases hp
    exact ⟨0, hinv, rfl⟩
  case isTrue =>
    cases hp
    refine ⟨_, ⟨?_, hinv.counts.same rfl rfl rfl rfl, ?_, ?_⟩, rfl⟩
    · exact (zero_add rest ▸ hinv.places).of_hold _
    · exact (zero_add rest ▸ hinv.upstreams).acquire
    · exact hinv.closing.congr id (fun hq _ => hq) rfl rfl (mem_of_ne fun t ht => hold_ne ht)

theorem owns_release : Leaves cfg 0 {.holding q} (act (.release q)) := by
  refine owns_act (fun _ => rfl) fun s rest ch r s' hinv hp => ?_
  cases hp
  refine ⟨0, ?_, rfl⟩
  rw [zero_add]
  exact ⟨hinv.places.forget rfl, hinv.counts.same rfl rfl rfl rfl, hinv.upstreams.release,
    hinv.closing.congr id (fun hq _ => hq) rfl rfl fun t ht _ => Multiset.mem_add.mpr (.inr ht)⟩

-- The upstream is taken from the admission by whoever has the duty.
theorem owns_takeUpstream (st st' : Stage) (ht : t.stage = some st) (ha : t.about = some a)
    (hphase : st'.phase = st.phase) (hslot : st'.slot = st.slot) (hst : st' ≠ .handled)
    (hdone : st ≠ .done)
    (hcustody : ∀ hands queued, st.Custody hands queued → st'.Custody hands queued) :
    Owns cfg (fun u left => left = st'.tokens a none + hold u) {t} (act (.takeUpstream a)) := by
  refine owns_act (fun _ => rfl) fun s rest ch r s' hinv hp => ?_
  have ⟨x, hx⟩ := hinv.record ha
  have hr : r = x.releaseUpstream := by
    cases hp
    simp [hx]
  have hs : s' = s.update a fun x => { x with releaseUpstream := none } := by
    cases hp
    rfl
  subst hr hs
  refine ⟨_, ⟨?_, ?_, hinv.upstreams.take ht hx st', ?_⟩, rfl⟩
  · rw [add_assoc, add_left_comm]
    refine (hinv.places.advance ht ha hx st' (fun he => absurd he hst) ?_
      (fun _ => hcustody _ _) fun _ _ => rfl).of_hold _
    exact fun h => ⟨h.phase.trans hphase.symm, h.slot.trans hslot.symm, fun he => absurd he hst,
      fun _ => rfl, fun _ => h.removed hdone, h.promotions, fun he => h.unpromoted (hphase ▸ he),
      hslot ▸ h.returns, fun he => h.burst (hslot ▸ he)⟩
  · exact hinv.counts.congr rfl (fun _ => rfl) (fun _ => rfl) rfl rfl rfl
  · refine hinv.closing.congr id (fun hq _ => hq) rfl rfl (mem_of_ne fun t' ht' => ?_)
    exact (Multiset.mem_add.mp ht').elim (Stage.tokens_ne _ t') hold_ne

theorem owns_setUpstream (st : Stage) (hst : st = .handled ∨ st = .session) :
    Leaves cfg (st.tokens a (some q)) (st.tokens a none + {.holding q})
      (act (.setUpstream a q)) := by
  have ⟨t, htokens, ht, ha⟩ : ∃ t, st.tokens a none = {t} ∧ t.stage = some st ∧
      t.about = some a := by
    rcases hst with rfl | rfl <;> exact ⟨_, rfl, rfl, rfl⟩
  rw [htokens]
  refine owns_act (fun _ => rfl) fun s rest ch r s' hinv hp => ?_
  rw [add_assoc] at hinv
  cases hp
  have ⟨x, hx⟩ := hinv.record ha
  -- Nothing is kept there yet, so nothing is lost.
  have hnone : x.releaseUpstream = none := by
    have heq := (hinv.fits ht ha hx).right.trans htokens.symm
    rcases hst with rfl | rfl <;> simpa using heq
  refine ⟨_, ⟨?_, ?_, hinv.upstreams.set ht hx hnone st, ?_⟩, rfl⟩
  · refine Places.forget (t := .holding q) rfl ?_
    rw [add_left_comm]
    refine hinv.places.advance ht ha hx st id ?_ (fun _ => id) fun _ _ => rfl
    refine fun h => { h with emptied := fun he => ?_ }
    rcases hst with rfl | rfl <;> rcases he with he | he <;> contradiction
  · exact hinv.counts.congr rfl (fun _ => rfl) (fun _ => rfl) rfl rfl rfl
  · rw [← add_assoc] at hinv
    exact hinv.closing.congr id (fun hq _ => hq) rfl rfl (mem_of_ne (Stage.tokens_ne _))

end Acquisitions

section Queue

theorem State.update_id (queue : List Nat) :
    { s.update a id with queue := queue } = { s with queue := queue } := by
  simp [State.update]

-- The timer is set when the handler is about to give the admission away.
theorem owns_arm (u : Option Nat) : Leaves cfg {.custody a} {.handler a u} (act (.arm a)) := by
  refine owns_act (fun _ => rfl) fun s rest ch r s' hinv hp => ?_
  cases hp
  have ⟨x, hx⟩ := hinv.record rfl
  have htidy := hinv.places.tidy a x hx
  rw [on_add, on_self rfl] at htidy
  have ⟨hands, hrest, _, hfits, hcustody⟩ := htidy.of_duty rfl
  refine ⟨_, hinv.rearrange (f := fun x => { x with armed := true }) ?_ (fun _ => rfl)
    (fun _ => rfl)
    (fun _ => rfl) (fun hq _ => hq) (by simp) (by simp), rfl⟩
  refine hinv.places.update hx (fun b hb => ?_) (fun b hb => ?_) (fun b u hu => ?_)
    (fun _ _ => rfl) ?_
  · rw [on_other rfl hb, on_other rfl hb]
  · exact nomatch Multiset.mem_singleton.mp hb
  · exact nomatch Multiset.mem_singleton.mp hu
  · rw [on_self rfl, hrest, hcustody.left, hcustody.right]
    exact ⟨.waiting, 1, rfl, { hfits with
      unarmed := nofun
      emptied := (·.elim nofun nofun)
      removed := fun _ => hfits.removed nofun
      burst := nofun }, rfl⟩

-- A timer that fires was set, so the handler is done with the admission.
theorem Places.fire (h : Places admissions queue rest) (hx : admissions[a]? = some x)
    (harmed : x.armed) :
    Places (admissions.modify a fun x => { x with armed := false }) queue ({.past a} + rest) := by
  have ⟨st, hands, heq, hfits, hcustody⟩ := h.tidy a x hx
  have hhandled : st ≠ .handled := by
    intro he
    rw [hfits.unarmed he] at harmed
    contradiction
  have hno : ∀ u, .handler a u ∉ rest := by
    intro u hu
    have hm : .handler a u ∈ on about rest a := mem_on.mpr ⟨hu, rfl⟩
    rw [heq] at hm
    rcases Multiset.mem_add.mp hm with hm | hm
    · exact hhandled (Option.some.inj (Stage.tokens_eq_of_mem hm).right.left).symm
    · exact nomatch Multiset.eq_of_mem_replicate hm
  have hplaces : Places (admissions.modify a fun x => { x with armed := false }) queue
      (0 + rest) := by
    rw [← zero_add rest] at h
    refine h.update hx (fun _ _ => rfl) (fun _ => id) (fun _ u hu => ⟨u, hu⟩) (fun _ _ => rfl) ?_
    rw [on_zero, zero_add]
    exact ⟨st, hands, heq, { hfits with unarmed := fun _ => rfl }, hcustody⟩
  rw [zero_add] at hplaces
  have hlt := (List.getElem?_eq_some_iff.mp hx).choose
  have hon : ∀ b, on about ({.past a} + rest) b = on about rest b :=
    fun _ => on_aside rfl
  refine ⟨fun b y hb => hon b ▸ hplaces.tidy b y hb, fun b hb => hon b ▸ hplaces.known b hb,
    fun b hb => ?_⟩
  rcases Multiset.mem_add.mp hb with hb | hb
  · cases Multiset.mem_singleton.mp hb
    refine ⟨by rwa [List.length_modify], fun u hu => ?_⟩
    exact hno u ((Multiset.mem_add.mp hu).resolve_left (by simp))
  · have ⟨hlt, hno⟩ := hplaces.past b hb
    exact ⟨hlt, fun u hu => hno u ((Multiset.mem_add.mp hu).resolve_left (by simp))⟩

theorem owns_fire : Owns cfg (fun fired left => left = if fired then {.past a} else 0) 0
    (act (.fire a)) := by
  refine owns_act (fun _ => rfl) fun s rest ch r s' hinv hp => ?_
  simp only [perform, State.fire] at hp
  split at hp
  case isFalse => cases hp; exact ⟨0, hinv, rfl⟩
  case isTrue =>
    split at hp
    case isFalse => cases hp; exact ⟨0, hinv, rfl⟩
    case isTrue harmed =>
      cases hp
      cases hx : s.admissions[a]?
      case none => simp [hx] at harmed
      case some x =>
        have harmed : x.armed := by simpa [hx] using harmed
        refine ⟨{.past a}, hinv.rearrange (f := fun x => { x with armed := false }) ?_
          (fun _ => rfl)
          (fun _ => rfl) (fun _ => rfl) (fun hq _ => hq) (by simp) (by simp), rfl⟩
        have hplaces : Places s.admissions s.queue rest := zero_add rest ▸ hinv.places
        exact hplaces.fire hx harmed

theorem owns_enqueue : Owns cfg (fun queued left => left = if queued then 0 else {.custody a})
    {.custody a} (act (.enqueue a)) := by
  refine owns_act (fun _ => rfl) fun s rest ch r s' hinv hp => ?_
  simp only [perform, State.enqueue] at hp
  split at hp
  case isFalse => cases hp; exact ⟨_, hinv, rfl⟩
  case isTrue hcan =>
    cases hp
    have ⟨x, hx⟩ := hinv.record rfl
    have htidy := hinv.places.tidy a x hx
    rw [on_add, on_self rfl] at htidy
    simp only [State.canEnqueue, State.phase, hx, Option.map_some, Option.some.injEq,
      Bool.and_eq_true,
      decide_eq_true_eq, Bool.not_eq_true'] at hcan
    have ⟨hrest, hqueue, hfits⟩ := htidy.of_waiting hcan.left
    refine ⟨0, ?_, rfl⟩
    rw [← State.update_id (a := a)]
    refine hinv.rearrange (f := id) ?_ (fun _ => rfl) (fun _ => rfl) (fun _ => rfl) (fun _ hc => ?_)
      (by simp) (by simp)
    · refine hinv.places.update hx (fun b hb => ?_) (fun b hb => ?_) (fun b u hu => ?_)
        (fun b hb => ?_) ?_
      · rw [on_other rfl hb]
        rfl
      · exact absurd hb (notMem_zero _)
      · exact absurd hu (notMem_zero _)
      · simp [List.count_append, Ne.symm hb]
      · rw [on_zero, zero_add, hrest, List.count_append, hqueue]
        exact ⟨.waiting, 0, rfl, hfits, by simp [Stage.Custody]⟩
    · rw [hcan.right] at hc
      contradiction

theorem owns_claim (clientKey : PublicKey) :
    Owns cfg (fun claimed left => left = match claimed with
      | some a => {.custody a}
      | none => 0) 0 (act (.claim clientKey)) := by
  refine owns_act (fun _ => rfl) fun s rest ch r s' hinv hp => ?_
  simp only [perform, State.claim] at hp
  split at hp
  case h_2 => cases hp; exact ⟨0, hinv, rfl⟩
  case h_1 a ha =>
    cases hp
    have hmem := List.mem_of_find?_eq_some ha
    have ⟨x, hx⟩ := hinv.places.exists_of_mem hmem
    have hpos := List.count_pos_iff.mpr hmem
    have htidy := hinv.places.tidy a x hx
    have ⟨st, hands, heq, hfits, hcustody⟩ := htidy
    rw [zero_add] at heq
    refine ⟨{.custody a}, ?_, rfl⟩
    rw [← State.update_id (a := a)]
    refine hinv.rearrange (f := id) ?_ (fun _ => rfl) (fun _ => rfl) (fun _ => rfl)
      (fun hq _ => by rw [hq]; rfl) (by simp) (by simp)
    refine hinv.places.update hx (fun b hb => ?_) (fun b hb => ?_) (fun b u hu => ?_)
      (fun b hb => List.count_erase_of_ne hb) ?_
    · rw [on_other rfl hb]
      rfl
    · exact nomatch Multiset.mem_singleton.mp hb
    · exact nomatch Multiset.mem_singleton.mp hu
    · rw [on_self rfl, heq, List.count_erase_self]
      refine ⟨st, hands + 1, ?_, hfits, ?_⟩
      · rw [Multiset.replicate_succ, ← singleton_add, add_left_comm]
        rfl
      · cases st
        all_goals
          simp only [Stage.Custody] at hcustody ⊢
          omega

end Queue

section Requests

-- A new admission is with the handler of the request.
theorem Places.reserve (h : Places admissions queue rest) (clientKey : PublicKey) (burst : Bool) :
    Places (admissions ++ [.new clientKey burst]) queue
      ({.handler admissions.length none} + rest) := by
  have ⟨hnone, hqueue⟩ := h.known admissions.length (le_refl _)
  refine ⟨fun b y hb => ?_, fun b hb => ?_, fun b hb => ?_⟩
  · by_cases hlt : b < admissions.length
    case pos =>
      rw [List.getElem?_append_left hlt] at hb
      rw [on_add, on_other rfl (Nat.ne_of_lt hlt), zero_add]
      exact h.tidy b y hb
    case neg =>
      have hlen := (List.getElem?_eq_some_iff.mp hb).choose
      rw [List.length_append, List.length_singleton] at hlen
      obtain rfl : b = admissions.length := by omega
      rw [List.getElem?_append_right (le_refl _), Nat.sub_self] at hb
      cases hb
      rw [on_add, on_self rfl, hnone, List.count_eq_zero_of_not_mem hqueue]
      exact ⟨.handled, 0, rfl, ⟨rfl, rfl, fun _ => rfl, fun _ => rfl, fun _ => rfl, Nat.zero_le _,
        fun _ => rfl, rfl, nofun⟩, rfl, rfl⟩
  · rw [List.length_append, List.length_singleton] at hb
    rw [on_add, on_other rfl (by omega), zero_add]
    exact h.known b (by omega)
  · have hb : .past b ∈ rest := (Multiset.mem_add.mp hb).resolve_left (by simp)
    have ⟨hlt, hno⟩ := h.past b hb
    refine ⟨by rw [List.length_append]; omega, fun u hu => ?_⟩
    rcases Multiset.mem_add.mp hu with hu | hu
    · cases Multiset.mem_singleton.mp hu
      exact absurd hlt (lt_irrefl _)
    · exact hno u hu

theorem Counts.reserve (h : Counts cfg s) (hcan : s.hasCapacity cfg) (clientKey : PublicKey) :
    Counts cfg (s.reserve clientKey) := by
  simp only [State.hasCapacity, Bool.and_eq_true, decide_eq_true_eq] at hcan
  obtain ⟨⟨_, hpending⟩, hlimit⟩ := hcan
  have hburst := h.burst
  have hburstLimit := h.burstLimit
  refine ⟨?_, ?_, ?_, hpending, ?_, ?_⟩
  · simp [h.pending, List.countP_append]
  · simp [h.active, List.countP_append]
  · simp only [State.reserve, List.countP_append, List.countP_singleton, Admission.new,
      decide_eq_true_eq, ← hburst]
    split <;> rfl
  · simp only [State.reserve]
    omega
  · simp only [State.reserve]
    split <;> omega

theorem owns_reserve (clientKey : PublicKey) :
    Owns cfg (fun reserved left => left = match reserved with
      | some a => {.handler a none}
      | none => 0) 0 (act (.reserve clientKey)) := by
  refine owns_act (fun _ => rfl) fun s rest ch r s' hinv hp => ?_
  simp only [perform] at hp
  split at hp
  case isFalse => cases hp; exact ⟨0, hinv, rfl⟩
  case isTrue hcan =>
    cases hp
    have hupstreams : Upstreams (s.reserve clientKey).admissions s.acquired s.released
        ({.handler s.admissions.length none} + rest) := by
      intro q
      have hq := hinv.upstreams q
      simpa [List.countP_append] using hq
    have hplaces : Places s.admissions s.queue rest := zero_add rest ▸ hinv.places
    refine ⟨_, ⟨hplaces.reserve clientKey _, hinv.counts.reserve hcan.left clientKey,
      hupstreams, ?_⟩, rfl⟩
    exact hinv.closing.congr id (fun hq _ => hq) rfl rfl
      (mem_of_ne fun t (ht : t ∈ Stage.handled.tokens _ none) => Stage.tokens_ne _ t ht)

end Requests

section Shutdown

theorem owns_closeOnce : Leaves cfg 0 0 (act .closeOnce) := by
  refine owns_act (fun _ => rfl) fun s rest ch r s' hinv hp => ?_
  simp only [perform] at hp
  split at hp
  case h_1 =>
    cases hp
    exact ⟨0, ⟨hinv.places, { hinv.counts with }, hinv.upstreams,
      { hinv.closing with closed := nofun }⟩, rfl⟩
  case h_2 => contradiction
  case h_3 => cases hp; exact ⟨0, hinv, rfl⟩

theorem owns_cancel : Leaves cfg {.cancelled} 0 (act .cancel) := by
  refine owns_act (fun _ => rfl) fun s rest ch r s' hinv hp => ?_
  cases hp
  rw [zero_add] at hinv
  refine ⟨_, ⟨hinv.places.note (t := .cancelled) rfl fun _ => nofun,
    hinv.counts.same rfl rfl rfl rfl, fun q => ?_, ?_⟩, rfl⟩
  · simpa using hinv.upstreams q
  · exact ⟨fun hd => ⟨rfl, (hinv.closing.drained hd).right⟩, fun _ => rfl,
      fun hm => hinv.closing.closer ((Multiset.mem_add.mp hm).resolve_left (by simp)),
      hinv.closing.closed⟩

def custodies (admissions : List Nat) : Multiset Token :=
  (admissions.map Token.custody : Multiset Token)

theorem on_custodies (admissions : List Nat) :
    on about (custodies admissions) a =
      Multiset.replicate (admissions.count a) (.custody a) := by
  induction admissions
  case nil => rfl
  case cons b admissions hi =>
    have hcons : custodies (b :: admissions) = {.custody b} + custodies admissions := rfl
    rw [hcons, on_add, hi]
    by_cases hb : b = a
    case pos =>
      subst hb
      rw [on_self rfl, List.count_cons_self, Multiset.replicate_succ, singleton_add]
    case neg => rw [on_other rfl (Ne.symm hb), zero_add, List.count_cons_of_ne hb]

theorem mem_custodies {admissions : List Nat} (h : t ∈ custodies admissions) :
    ∃ a, t = .custody a := by
  obtain ⟨a, _, rfl⟩ := List.mem_map.mp (Multiset.mem_coe.mp h)
  exact ⟨a, rfl⟩

-- Everything that was queued is in the hands of whoever closes.
theorem Places.drain {queue order : List Nat} (h : Places admissions queue rest)
    (horder : order.Perm queue) : Places admissions [] (custodies order + rest) := by
  refine ⟨fun b y hb => ?_, fun b hb => ?_, fun b hb => ?_⟩
  · have ⟨st, hands, heq, hfits, hcustody⟩ := h.tidy b y hb
    rw [on_add, on_custodies, heq, horder.count_eq]
    refine ⟨st, queue.count b + hands, ?_, hfits, ?_⟩
    · rw [Multiset.replicate_add, add_left_comm]
    · cases st
      all_goals
        simp only [Stage.Custody, List.count_nil, and_true] at hcustody ⊢
        omega
  · have ⟨hnone, hqueue⟩ := h.known b hb
    rw [on_add, on_custodies, hnone, horder.count_eq, List.count_eq_zero_of_not_mem hqueue]
    exact ⟨rfl, List.not_mem_nil⟩
  · have hno : ∀ t ∈ custodies order, t ≠ .past b ∧ ∀ u, t ≠ .handler b u := by
      intro t ht
      obtain ⟨a, rfl⟩ := mem_custodies ht
      exact ⟨nofun, fun _ => nofun⟩
    have ⟨hlt, hnone⟩ :=
        h.past b ((Multiset.mem_add.mp hb).resolve_left fun hb => (hno _ hb).left rfl)
    exact ⟨hlt, fun u hu => hnone u ((Multiset.mem_add.mp hu).resolve_left
      fun hu => (hno _ hu).right u rfl)⟩

theorem owns_drain : Owns cfg (fun order left => left = {.drained} + custodies order) {.cancelled}
    (act .drain) := by
  refine owns_act (fun _ => rfl) fun s rest ch r s' hinv hp => ?_
  simp only [perform, Option.ite_none_right_eq_some, Option.some.injEq, Prod.mk.injEq] at hp
  obtain ⟨horder, rfl, rfl⟩ := hp
  have hcancelled :=
      hinv.closing.cancelled (Multiset.mem_add.mpr (.inl (mem_singleton_self _)))
  refine ⟨_, ⟨?_, hinv.counts.same rfl rfl rfl rfl, fun q => ?_, ?_⟩, rfl⟩
  · rw [add_assoc]
    exact ((hinv.places.forget rfl).drain horder).note rfl fun _ => nofun
  · have hq := hinv.upstreams q
    have hnone : (custodies ch.order).count (.holding q) = 0 := by
      refine Multiset.count_eq_zero.mpr fun hm => ?_
      obtain ⟨a, ha⟩ := mem_custodies hm
      contradiction
    simpa [hnone] using hq
  · refine ⟨fun _ => ⟨hcancelled, rfl⟩, fun _ => hcancelled, fun _ => rfl, fun _ => rfl⟩

theorem owns_closed : Leaves cfg 0 {.drained} (act .closed) := by
  refine owns_act (fun _ => rfl) fun s rest ch r s' hinv hp => ?_
  cases hp
  have hdrained := hinv.closing.closer (Multiset.mem_add.mpr (.inl (mem_singleton_self _)))
  refine ⟨0, ?_, rfl⟩
  rw [zero_add]
  refine ⟨hinv.places.forget rfl, hinv.counts.same rfl rfl rfl rfl, fun q => ?_, ?_⟩
  · simpa using hinv.upstreams q
  · exact ⟨hinv.closing.drained, fun hm => hinv.closing.cancelled (Multiset.mem_add.mpr (.inr hm)),
      fun _ => hdrained, fun _ => hdrained⟩

end Shutdown

end GizClaw.Gateway

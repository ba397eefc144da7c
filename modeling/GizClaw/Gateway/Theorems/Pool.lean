import GizClaw.Gateway.Pool
import GizClaw.Lib.Tally

-- Which upstreams the pool lists, who uses them and who closes them, and how the pool grows.

namespace GizClaw.UpstreamPool

open Interleaving (Program)

attribute [local simp] State.init

-- A thread has dialed an upstream, is about to close one, lets the pool grow, or releases an
-- acquisition.
inductive Token where
  | dialed (u : Nat)
  | closing (u : Nat)
  | growth (g : Nat)
  | once (k : Nat)
  deriving DecidableEq

def State.sessions (s : State) (u : Nat) : Nat :=
  s.acquisitions.countP fun k => k.upstream = u && !k.released

-- An upstream, whether it is in the list, how many acquisitions of it are not released yet, and
-- whether anybody is about to close it.
structure Fits (cfg : Config) (x : Upstream) (entry : Prop) (sessions : Nat) (closer : Prop) :
    Prop where
  listed : entry → (x.status = .selectable ∨ x.status = .draining ∧ 0 < x.active) ∧
    x.dialing = false ∧ x.due = false
  unlisted : ¬entry → x.dialing ∨ x.due
  failed : x.dialing → x.due → x.status = .failed
  due : x.due → x.closes = 1 ∨ closer
  closing : closer → x.due
  closes : x.closes ≤ 1 ∧ (x.closes = 1 → x.due)
  active : x.active = sessions
  limit : x.active ≤ cfg.sessionsPerUpstream

structure Growth (cfg : Config) (s : State) (tokens : Multiset Token) : Prop where
  held : ∀ g, s.growthDone = some g → .growth g ∈ tokens
  current : ∀ g, .growth g ∈ tokens → s.growthDone = some g ∨ s.closed
  single : ∀ g, tokens.count (.growth g) ≤ 1
  known : ∀ g, .growth g ∈ tokens → g < s.channels
  room : s.growthDone.isSome → s.entries.length < cfg.maxUpstreams
  limit : s.entries.length ≤ cfg.maxUpstreams
  closings : ∀ g, s.closings.count g + (if s.growthDone = some g then 1 else 0) =
    if g < s.channels then 1 else 0

structure Acquired (s : State) (tokens : Multiset Token) : Prop where
  status : ∀ k ∈ s.acquisitions, k.status = .selectable
  dialed : ∀ k ∈ s.acquisitions, s.has k.upstream (!·.dialing)
  released : ∀ k ∈ s.acquisitions, k.released → k.once
  once : ∀ k, tokens.count (.once k) =
    if s.acquisitions[k]?.any (fun k => k.once && !k.released) then 1 else 0

structure Inv (cfg : Config) (s : State) (tokens : Multiset Token) : Prop where
  fits : ∀ u x, s.upstreams[u]? = some x →
    Fits cfg x (u ∈ s.entries) (s.sessions u) (.closing u ∈ tokens)
  known : ∀ u, s.upstreams.length ≤ u → u ∉ s.entries ∧ .closing u ∉ tokens
  nodup : s.entries.Nodup
  dialing : ∀ u, tokens.count (.dialed u) = if s.has u (·.dialing) then 1 else 0
  acquired : Acquired s tokens
  growth : Growth cfg s tokens

theorem inv_init (cfg : Config) : Inv cfg .init 0 where
  fits := fun u x h => by simp at h
  known := fun u _ => ⟨List.not_mem_nil, Multiset.notMem_zero _⟩
  nodup := .nil
  dialing := fun u => by simp [State.has]
  acquired := ⟨fun _ h => absurd h List.not_mem_nil, fun _ h => absurd h List.not_mem_nil,
    fun _ h => absurd h List.not_mem_nil, fun k => by simp⟩
  growth :=
    ⟨fun _ => nofun, fun _ h => absurd h (Multiset.notMem_zero _), fun _ => Nat.zero_le _,
    fun _ h => absurd h (Multiset.notMem_zero _), nofun, Nat.zero_le _,
    fun g => by simp⟩

variable {cfg : Config} {s : State} {tokens : Multiset Token} {t : Token} {u g k : Nat}
  {x : Upstream}

section Tokens

theorem mem_singleton_add : t' ∈ {t} + tokens ↔ t' = t ∨ t' ∈ tokens := by
  rw [Multiset.mem_add, Multiset.mem_singleton]

theorem count_singleton_add :
    ({t} + tokens).count t' = (if t' = t then 1 else 0) + tokens.count t' := by
  rw [Multiset.count_add, Multiset.count_singleton]

theorem has_eq (hx : s.upstreams[u]? = some x) (p : Upstream → Bool) : s.has u p = p x := by
  simp [State.has, hx]

theorem exists_of_has (h : s.has u p) : ∃ x, s.upstreams[u]? = some x ∧ p x := by
  cases hx : s.upstreams[u]?
  case none => simp [State.has, hx] at h
  case some x => exact ⟨x, rfl, has_eq hx p ▸ h⟩

end Tokens

section Growing

theorem Inv.of_growth (h : Inv cfg s tokens) (hupstreams : s'.upstreams = s.upstreams)
    (hentries : s'.entries = s.entries) (hacquisitions : s'.acquisitions = s.acquisitions)
    (hcount : ∀ t, (∀ g, t ≠ .growth g) → tokens'.count t = tokens.count t)
    (hgrowth : Growth cfg s' tokens') : Inv cfg s' tokens' where
  fits := by
    intro u x hx
    have hclosing : .closing u ∈ tokens' ↔ .closing u ∈ tokens := by
      rw [← Multiset.count_pos, ← Multiset.count_pos, hcount (.closing u) (by simp)]
    rw [hentries, hclosing, State.sessions, hacquisitions]
    exact h.fits u x (hupstreams ▸ hx)
  known := by
    intro u hu
    have ⟨hentry, hclosing⟩ := h.known u (hupstreams ▸ hu)
    refine ⟨hentries ▸ hentry, fun hm => hclosing ?_⟩
    rw [← Multiset.count_pos] at hm ⊢
    rwa [hcount (.closing u) (by simp)] at hm
  nodup := hentries ▸ h.nodup
  dialing := by
    intro u
    rw [hcount (.dialed u) (by simp), State.has, hupstreams]
    exact h.dialing u
  acquired := by
    refine ⟨hacquisitions ▸ h.acquired.status, fun k hk => ?_, hacquisitions ▸ h.acquired.released,
      fun k => ?_⟩
    · rw [State.has, hupstreams]
      exact h.acquired.dialed k (hacquisitions ▸ hk)
    · rw [hcount (.once k) (by simp), hacquisitions]
      exact h.acquired.once k
  growth := hgrowth

theorem Growth.not_mem (h : Growth cfg s tokens) : .growth s.channels ∉ tokens :=
  fun hm => lt_irrefl _ (h.known _ hm)

theorem closings_grow (h : closings = if g < channels then 1 else 0) :
    closings + (if some channels = some g then 1 else 0) = if g < channels + 1 then 1 else 0 := by
  simp only [h, Option.some.injEq]
  split_ifs <;> omega

theorem Inv.grow (h : Inv cfg s tokens) (hnone : s.growthDone = none)
    (hroom : s.entries.length < cfg.maxUpstreams) :
    Inv cfg s.grow ({.growth s.channels} + tokens) := by
  refine h.of_growth rfl rfl rfl (fun t ht => ?_) ⟨?_, ?_, ?_, ?_, fun _ => hroom,
    h.growth.limit, ?_⟩
  · rw [count_singleton_add, if_neg (ht _), zero_add]
  · intro g hg
    cases hg
    exact mem_singleton_add.mpr (.inl rfl)
  · intro g hg
    rcases mem_singleton_add.mp hg with hg | hg
    · cases hg
      exact .inl rfl
    · rcases h.growth.current g hg with hc | hc
      · rw [hnone] at hc
        contradiction
      · exact .inr hc
  · intro g
    rw [count_singleton_add]
    split
    case isTrue hg =>
      cases hg
      rw [Multiset.count_eq_zero.mpr h.growth.not_mem]
    case isFalse =>
      rw [zero_add]
      exact h.growth.single g
  · intro g hg
    rcases mem_singleton_add.mp hg with hg | hg
    · cases hg
      exact Nat.lt_succ_self _
    · exact (h.growth.known g hg).trans (Nat.lt_succ_self _)
  · intro g
    have hg := h.growth.closings g
    simp only [hnone, reduceCtorEq, if_false, add_zero] at hg
    exact closings_grow hg

theorem closings_finish (hd : done = some d)
    (h : closings.count g + (if done = some g then 1 else 0) = n) :
    (closings ++ [d]).count g + (if none = some g then 1 else 0) = n := by
  simp only [hd, Option.some.injEq] at h
  simp only [List.count_append, List.count_singleton, beq_iff_eq, reduceCtorEq, if_false, add_zero]
  exact h

theorem Inv.finishGrowth (h : Inv cfg s ({.growth g} + tokens)) (hg : s.growthDone = some g) :
    Inv cfg (s.finishGrowth g) tokens := by
  have hlone : .growth g ∉ tokens := by
    have hsingle := h.growth.single g
    rw [count_singleton_add, if_pos rfl] at hsingle
    exact Multiset.count_eq_zero.mp (by omega)
  refine h.of_growth rfl rfl rfl (fun t ht => ?_)
    ⟨fun _ => nofun, ?_, ?_, ?_, nofun, h.growth.limit, ?_⟩
  · rw [count_singleton_add, if_neg (ht _), zero_add]
  · intro g' hg'
    rcases h.growth.current g' (mem_singleton_add.mpr (.inr hg')) with hc | hc
    · cases hg.symm.trans hc
      exact absurd hg' hlone
    · exact .inr hc
  · intro g'
    have hsingle := h.growth.single g'
    rw [count_singleton_add] at hsingle
    omega
  · exact fun g' hg' => h.growth.known g' (mem_singleton_add.mpr (.inr hg'))
  · exact fun g' => closings_finish hg (h.growth.closings g')

-- Growth that is not current any more is given up.
theorem Inv.dropGrowth (h : Inv cfg s ({.growth g} + tokens)) (hg : s.growthDone ≠ some g) :
    Inv cfg s tokens := by
  refine h.of_growth rfl rfl rfl (fun t ht => ?_)
    ⟨?_, ?_, ?_, ?_, h.growth.room, h.growth.limit, h.growth.closings⟩
  · rw [count_singleton_add, if_neg (ht _), zero_add]
  · intro g' hg'
    refine (mem_singleton_add.mp (h.growth.held g' hg')).resolve_left fun he => hg ?_
    cases he
    exact hg'
  · exact fun g' hg' => h.growth.current g' (mem_singleton_add.mpr (.inr hg'))
  · intro g'
    have hsingle := h.growth.single g'
    rw [count_singleton_add] at hsingle
    omega
  · exact fun g' hg' => h.growth.known g' (mem_singleton_add.mpr (.inr hg'))

def growing : Option Nat → Multiset Token
  | some g => {.growth g}
  | none => 0

theorem Inv.reserveWarmGrowth (h : Inv cfg s tokens) :
    Inv cfg (s.reserveWarmGrowth cfg).snd (growing (s.reserveWarmGrowth cfg).fst + tokens) := by
  unfold State.reserveWarmGrowth
  split
  case isTrue =>
    rw [growing, zero_add]
    exact h
  case isFalse hroom =>
    simp only [State.hasWarmRoom, Bool.or_eq_true, Bool.not_eq_true', Bool.and_eq_false_iff,
      decide_eq_false_iff_not, not_or, not_not] at hroom
    exact h.grow (Option.not_isSome_iff_eq_none.mp hroom.right) hroom.left.right.right

end Growing

section Upstreams

variable {s' : State} {tokens' : Multiset Token} {f : Upstream → Upstream}

theorem has_modify (hx : s.upstreams[u]? = some x)
    (hupstreams : s'.upstreams = s.upstreams.modify u f) (hp : p x → p (f x)) (h : s.has v p) :
    s'.has v p := by
  have ⟨y, hy, hpy⟩ := exists_of_has h
  rw [State.has, hupstreams, List.getElem?_modify, hy]
  split
  case isTrue he =>
    cases he
    cases hx.symm.trans hy
    exact hp hpy
  case isFalse => exact hpy

theorem Acquired.congr (h : Acquired s tokens) (hacquisitions : s'.acquisitions = s.acquisitions)
    (hhas : ∀ v, s.has v (!·.dialing) → s'.has v (!·.dialing))
    (htokens : ∀ k, tokens'.count (.once k) = tokens.count (.once k)) : Acquired s' tokens' where
  status := hacquisitions ▸ h.status
  dialed := fun k hk => hhas _ (h.dialed k (hacquisitions ▸ hk))
  released := hacquisitions ▸ h.released
  once := fun k => by rw [htokens, hacquisitions, h.once]

theorem Growth.congr (h : Growth cfg s tokens) (hdone : s'.growthDone = s.growthDone)
    (hchannels : s'.channels = s.channels) (hclosings : s'.closings = s.closings)
    (hclosed : s'.closed = s.closed) (hlength : s'.entries.length ≤ s.entries.length)
    (htokens : ∀ g, tokens'.count (.growth g) = tokens.count (.growth g)) :
    Growth cfg s' tokens' := by
  have hmem (g : Nat) : .growth g ∈ tokens' ↔ .growth g ∈ tokens := by
    rw [← Multiset.count_pos, ← Multiset.count_pos, htokens]
  refine ⟨?_, ?_, ?_, ?_, ?_, hlength.trans h.limit, ?_⟩
  · exact fun g hg => (hmem g).mpr (h.held g (hdone ▸ hg))
  · exact fun g hg => hdone ▸ hclosed ▸ h.current g ((hmem g).mp hg)
  · exact fun g => htokens g ▸ h.single g
  · exact fun g hg => hchannels ▸ h.known g ((hmem g).mp hg)
  · exact fun hg => hlength.trans_lt (h.room (hdone ▸ hg))
  · intro g
    rw [hclosings, hdone, hchannels]
    exact h.closings g

-- Something happens to one upstream.
theorem Inv.change (h : Inv cfg s tokens) (hx : s.upstreams[u]? = some x)
    (hupstreams : s'.upstreams = s.upstreams.modify u f)
    (hentries : ∀ v, v ≠ u → (v ∈ s'.entries ↔ v ∈ s.entries)) (hnodup : s'.entries.Nodup)
    (hsessions : ∀ v, v ≠ u → s'.sessions v = s.sessions v)
    (htokens : ∀ v, v ≠ u → tokens'.count (.dialed v) = tokens.count (.dialed v) ∧
      (.closing v ∈ tokens' ↔ .closing v ∈ tokens))
    (hdialing : tokens'.count (.dialed u) = if (f x).dialing then 1 else 0)
    (hfits : Fits cfg x (u ∈ s.entries) (s.sessions u) (.closing u ∈ tokens) →
      Fits cfg (f x) (u ∈ s'.entries) (s'.sessions u) (.closing u ∈ tokens'))
    (hacquired : Acquired s' tokens') (hgrowth : Growth cfg s' tokens') : Inv cfg s' tokens' where
  fits := by
    intro v y hy
    rw [hupstreams] at hy
    by_cases he : v = u
    case pos =>
      cases he
      rw [List.getElem?_modify_eq, hx] at hy
      cases hy
      exact hfits (h.fits u x hx)
    case neg =>
      rw [List.getElem?_modify_ne _ _ (Ne.symm he)] at hy
      rw [hentries v he, hsessions v he, (htokens v he).right]
      exact h.fits v y hy
  known := by
    intro v hv
    rw [hupstreams, List.length_modify] at hv
    have hne : v ≠ u := fun he => by
      cases he
      exact absurd hx (by simp [List.getElem?_eq_none hv])
    rw [hentries v hne, (htokens v hne).right]
    exact h.known v hv
  nodup := hnodup
  dialing := by
    intro v
    by_cases he : v = u
    case pos =>
      cases he
      rw [hdialing, State.has, hupstreams, List.getElem?_modify_eq, hx]
      rfl
    case neg =>
      rw [(htokens v he).left, h.dialing v, State.has, State.has, hupstreams,
        List.getElem?_modify_ne _ _ (Ne.symm he)]
  acquired := hacquired
  growth := hgrowth

theorem Inv.exists_of_dialed (h : Inv cfg s ({.dialed u} + tokens)) :
    ∃ x, s.upstreams[u]? = some x ∧ x.dialing ∧ tokens.count (.dialed u) = 0 := by
  have hcount := h.dialing u
  rw [count_singleton_add, if_pos rfl] at hcount
  split at hcount
  case isTrue hd =>
    have ⟨x, hx, hd⟩ := exists_of_has hd
    exact ⟨x, hx, hd, by omega⟩
  case isFalse => omega

theorem Inv.not_mem_of_dialing (h : Inv cfg s tokens) (hx : s.upstreams[u]? = some x)
    (hd : x.dialing) : u ∉ s.entries := by
  intro hu
  have hnot := ((h.fits u x hx).listed hu).right.left
  rw [hd] at hnot
  contradiction

theorem has_dialed (hs : s'.upstreams = s.upstreams ++ [.new]) :
    s'.has v p = (s.has v p || v = s.upstreams.length && p .new) := by
  simp only [State.has, hs]
  rcases Nat.lt_trichotomy v s.upstreams.length with hv | rfl | hv
  · simp [List.getElem?_append_left hv, hv.ne]
  · simp
  · rw [List.getElem?_eq_none hv.le, List.getElem?_eq_none (by rw [List.length_append]; exact hv)]
    simp [hv.ne']

theorem Inv.sessions_eq_zero (h : Inv cfg s tokens) : s.sessions s.upstreams.length = 0 := by
  refine List.countP_eq_zero.mpr fun k hk => ?_
  have ⟨y, hy, _⟩ := exists_of_has (h.acquired.dialed k hk)
  have hlt := (List.getElem?_eq_some_iff.mp hy).fst
  simp [hlt.ne]

theorem Inv.dial (h : Inv cfg s tokens) :
    Inv cfg { s with upstreams := s.upstreams ++ [.new] }
      ({.dialed s.upstreams.length} + tokens) := by
  have ⟨hentry, hclosing⟩ := h.known s.upstreams.length le_rfl
  refine ⟨?_, ?_, h.nodup, ?_, ?_, ?_⟩
  · intro u x hx
    simp only [mem_singleton_add, reduceCtorEq, false_or]
    rcases Nat.lt_or_ge u s.upstreams.length with hu | hu
    · exact h.fits u x (List.getElem?_append_left hu ▸ hx)
    · obtain ⟨rfl, rfl⟩ : s.upstreams.length = u ∧ Upstream.new = x := by
        rw [List.getElem?_append_right hu] at hx
        have ⟨hlt, he⟩ := List.getElem?_eq_some_iff.mp hx
        simp only [List.length_singleton] at hlt
        exact ⟨by omega, by simpa using he⟩
      exact ⟨fun hu => absurd hu hentry, fun _ => .inl rfl, fun _ => nofun, nofun,
        fun hc => absurd hc hclosing, ⟨Nat.zero_le _, nofun⟩, h.sessions_eq_zero.symm,
          Nat.zero_le _⟩
  · intro u hu
    simp only [List.length_append, List.length_singleton] at hu
    simp only [mem_singleton_add, reduceCtorEq, false_or]
    exact h.known u (by omega)
  · intro u
    have hold : s.has s.upstreams.length (·.dialing) = false := by simp [State.has]
    rw [has_dialed rfl, count_singleton_add, h.dialing]
    by_cases he : u = s.upstreams.length
    case pos => simp [he, hold, Upstream.new]
    case neg => simp [he]
  · exact h.acquired.congr rfl (fun v hv => by rw [has_dialed rfl, hv]; rfl) (by simp)
  · exact h.growth.congr rfl rfl rfl rfl le_rfl (by simp)

theorem Fits.insert {closer : Prop} (h : Fits cfg x False n closer)
    (hstatus : x.status = .selectable) (hd : x.dialing) :
    Fits cfg { x with dialing := false } True n closer := by
  have hdue : x.due = false := by
    rw [← Bool.not_eq_true]
    intro hdue
    rw [h.failed hd hdue] at hstatus
    contradiction
  exact ⟨fun _ => ⟨.inl hstatus, rfl, hdue⟩, fun hn => absurd trivial hn, nofun,
    h.due, h.closing,
    h.closes, h.active, h.limit⟩

theorem Inv.insert (h : Inv cfg s ({.dialed u} + tokens)) (hu : s.has u (·.status = .selectable))
    (hnone : s.growthDone = none) (hroom : s.entries.length < cfg.maxUpstreams) :
    Inv cfg (s.insert u) tokens := by
  have ⟨x, hx, hd, hcount⟩ := h.exists_of_dialed
  have hstatus : x.status = .selectable := by
    rw [has_eq hx] at hu
    exact of_decide_eq_true hu
  have hnot := h.not_mem_of_dialing hx hd
  have hlisted : u ∈ (s.insert u).entries := List.mem_append_right _ (List.mem_singleton_self u)
  refine h.change (f := fun x => { x with dialing := false }) hx rfl ?_ ?_ (fun _ _ => rfl) ?_
    hcount ?_ ?_ ?_
  · intro v hv
    simp [State.insert, hv]
  · exact List.nodup_append_comm.mp (List.nodup_cons.mpr ⟨hnot, h.nodup⟩)
  · intro v hv
    simp [hv]
  · simp only [mem_singleton_add, reduceCtorEq, false_or, hnot, hlisted]
    exact fun hf => hf.insert hstatus hd
  · exact h.acquired.congr rfl
      (fun v => has_modify (f := fun x => { x with dialing := false }) hx rfl
      fun _ => rfl) (by simp)
  · have hgrowth : Growth cfg s tokens := h.growth.congr rfl rfl rfl rfl le_rfl (by simp)
    refine ⟨hgrowth.held, hgrowth.current, hgrowth.single, hgrowth.known, fun hg => ?_, ?_,
      hgrowth.closings⟩
    · rw [State.insert, State.update, hnone] at hg
      contradiction
    · rw [State.insert, List.length_append]
      exact hroom

end Upstreams

end GizClaw.UpstreamPool

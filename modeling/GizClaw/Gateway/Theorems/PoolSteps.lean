import GizClaw.Gateway.Theorems.Pool

-- What the critical sections of the pool do to its upstreams.

namespace GizClaw.UpstreamPool

variable {cfg : Config} {s s' : State} {tokens tokens' : Multiset Token} {u k : Nat} {x : Upstream}
variable {entry closer : Prop} {n : Nat} {f : Upstream → Upstream}

section Closing

-- An upstream that is to be closed is not in the list any more.
theorem Fits.of_due (hd : x.dialing → x.status = .failed) (hcloses : x.closes ≤ 1)
    (hactive : x.active = n) (hlimit : x.active ≤ cfg.sessionsPerUpstream) :
    Fits cfg { x with due := true } False n True where
  listed := nofun
  unlisted := fun _ => .inr rfl
  failed := fun hx _ => hd hx
  due := fun _ => .inr trivial
  closing := fun _ => rfl
  closes := ⟨hcloses, fun _ => rfl⟩
  active := hactive
  limit := hlimit

theorem Inv.reject (h : Inv cfg s ({.dialed u} + tokens)) :
    Inv cfg (s.reject u) ({.closing u} + tokens) := by
  have ⟨x, hx, hd, hcount⟩ := h.exists_of_dialed
  have hnot := h.not_mem_of_dialing hx hd
  refine h.change (f := fun x => { x with dialing := false, due := true }) hx rfl
    (fun _ _ => .rfl) h.nodup
    (fun _ _ => rfl) ?_ ?_ ?_ ?_ ?_
  · intro v hv
    simp [hv]
  · simpa using hcount
  · intro hf
    have hnot' : u ∉ (s.reject u).entries := hnot
    simp only [mem_singleton_add, true_or, hnot']
    exact Fits.of_due (x := { x with dialing := false }) nofun hf.closes.left
      hf.active hf.limit
  · exact h.acquired.congr rfl
      (fun v => has_modify (f := fun x => { x with dialing := false, due := true }) hx rfl fun _ =>
        rfl) (by simp)
  · exact h.growth.congr rfl rfl rfl rfl le_rfl (by simp)

theorem Fits.close (h : Fits cfg x entry n True) :
    Fits cfg { x with closes := if x.closes = 0 then 1 else x.closes } entry n closer := by
  have hdue := h.closing trivial
  have hclosed : (if x.closes = 0 then 1 else x.closes) = 1 := by
    have hle := h.closes.left
    split <;> omega
  exact ⟨h.listed, h.unlisted, h.failed, fun _ => .inl hclosed, fun _ => hdue,
    ⟨hclosed.le, fun _ => hdue⟩,
    h.active, h.limit⟩

theorem Inv.exists_of_closing (h : Inv cfg s tokens) (hu : .closing u ∈ tokens) :
    ∃ x, s.upstreams[u]? = some x := by
  have hlt : u < s.upstreams.length := by
    by_contra hge
    exact (h.known u (Nat.le_of_not_lt hge)).right hu
  exact ⟨_, List.getElem?_eq_getElem hlt⟩

theorem Inv.close (h : Inv cfg s ({.closing u} + tokens)) :
    Inv cfg
      (s.update u fun x => { x with closes := if x.closes = 0 then 1 else x.closes }) tokens := by
  have ⟨x, hx⟩ := h.exists_of_closing (mem_singleton_add.mpr (.inl rfl))
  have hdialing := h.dialing u
  rw [has_eq hx] at hdialing
  refine h.change (f := fun x => { x with closes := if x.closes = 0 then 1 else x.closes }) hx rfl
    (fun _ _ => .rfl) h.nodup (fun _ _ => rfl) ?_ ?_ ?_ ?_ ?_
  · intro v hv
    simp [hv]
  · simpa using hdialing
  · simp only [mem_singleton_add, true_or]
    exact Fits.close
  · exact h.acquired.congr rfl (fun v => has_modify (f := fun x =>
      { x with closes := if x.closes = 0 then 1 else x.closes }) hx rfl id) (by simp)
  · exact h.growth.congr rfl rfl rfl rfl le_rfl (by simp)

end Closing

section Leaving

-- The first half of `State.leave`.
def State.retire (s : State) (u : Nat) (leaves : Bool) : State :=
  if leaves then
    { s.update u fun x => { x with due := true } with entries := s.entries.erase u }
  else
    s

def leaving : Option Nat → Multiset Token
  | some u => {.closing u}
  | none => 0

theorem Inv.leave
    (h : Inv cfg (s.retire u leaves) (leaving (if leaves then some u else none) + tokens)) :
    Inv cfg (s.leave cfg u leaves).snd
      (leaving (s.leave cfg u leaves).fst.fst + growing
      (s.leave cfg u leaves).fst.snd + tokens) := by
  have hgrow := h.reserveWarmGrowth
  rw [← add_assoc, add_comm (growing _)] at hgrow
  exact hgrow

-- Something happens to an upstream, and it may leave for it.
theorem Inv.retire (h : Inv cfg s tokens) (s₁ : State) (hx : s.upstreams[u]? = some x)
    (hupstreams : s₁.upstreams = s.upstreams.modify u f) (hentries : s₁.entries = s.entries)
    (hsessions : ∀ v, v ≠ u → s₁.sessions v = s.sessions v) (hdialing : (f x).dialing = x.dialing)
    (htokens : ∀ v, tokens'.count (.dialed v) = tokens.count (.dialed v) ∧
      (.closing v ∈ tokens' ↔ .closing v ∈ tokens))
    (hstays : leaves = false → ∀ closer, Fits cfg x (u ∈ s.entries) (s.sessions u) closer →
      Fits cfg (f x) (u ∈ s.entries) (s₁.sessions u) closer)
    (hleaves : leaves → ∀ closer, Fits cfg x (u ∈ s.entries) (s.sessions u) closer →
      Fits cfg { f x with due := true } False (s₁.sessions u) True)
    (hacquired : Acquired s₁ tokens') (hgrowth : Growth cfg s₁ tokens') :
    Inv cfg (s₁.retire u leaves) (leaving (if leaves then some u else none) + tokens') := by
  have hcount : tokens.count (.dialed u) = if (f x).dialing then 1 else 0 := by
    rw [h.dialing, has_eq hx, hdialing]
  cases leaves
  case false =>
    simp only [State.retire, Bool.false_eq_true, if_false, leaving, zero_add]
    refine h.change hx hupstreams (fun _ _ => by rw [hentries]) (hentries ▸ h.nodup) hsessions
      (fun v _ => htokens v) ((htokens u).left.trans hcount) ?_ hacquired hgrowth
    rw [hentries, (htokens u).right]
    exact hstays rfl _
  case true =>
    simp only [State.retire, if_true, leaving]
    have herase (v : Nat) : v ∈ s₁.entries.erase u ↔ v ≠ u ∧ v ∈ s.entries := by
      rw [hentries, h.nodup.mem_erase_iff]
    have hmodify : (s₁.update u fun x => { x with due := true }).upstreams =
        s.upstreams.modify u fun x => { f x with due := true } := by
      rw [State.update, hupstreams, List.modify_modify_eq]
      rfl
    refine h.change (f := fun x => { f x with due := true }) hx hmodify ?_ ?_ hsessions
      ?_ ?_ ?_ ?_ ?_
    · intro v hv
      rw [herase, and_iff_right hv]
    · exact (hentries ▸ h.nodup).erase u
    · intro v hv
      simp [(htokens v).left, (htokens v).right, hv]
    · simpa [(htokens u).left] using hcount
    · simp only [mem_singleton_add, true_or, herase, ne_eq, not_true, false_and]
      exact hleaves rfl _
    · have hx₁ : s₁.upstreams[u]? = some (f x) := by
        rw [hupstreams, List.getElem?_modify_eq, hx]
        rfl
      exact hacquired.congr rfl (fun v => has_modify hx₁ rfl id) (by simp)
    · exact hgrowth.congr rfl rfl rfl rfl (List.length_erase_le) (by simp)

end Leaving

section Sessions

variable {a : Acquisition}

theorem Acquired.take (h : Acquired s tokens) (hx : s.upstreams[u]? = some x)
    (hstatus : x.status = .selectable) (hd : x.dialing = false) : Acquired (s.take u) tokens := by
  have hhas (v : Nat) : s.has v (!·.dialing) → (s.take u).has v (!·.dialing) :=
    has_modify (f := fun x => { x with active := x.active + 1 }) hx rfl id
  refine ⟨?_, ?_, ?_, ?_⟩
  · refine List.forall_mem_append.mpr ⟨h.status, List.forall_mem_singleton.mpr ?_⟩
    simp [hx, hstatus]
  · refine List.forall_mem_append.mpr ⟨fun k hk => hhas _ (h.dialed k hk),
      List.forall_mem_singleton.mpr ?_⟩
    exact hhas u (by simp [has_eq hx, hd])
  · exact List.forall_mem_append.mpr ⟨h.released, List.forall_mem_singleton.mpr nofun⟩
  · intro k
    rw [h.once]
    congr 1
    simp only [State.take]
    rcases Nat.lt_trichotomy k s.acquisitions.length with hk | rfl | hk
    · rw [List.getElem?_append_left hk]
    · simp
    · rw [List.getElem?_eq_none hk.le, List.getElem?_eq_none (by rw [List.length_append]; exact hk)]

theorem sessions_take (v : Nat) : (s.take u).sessions v = s.sessions v +
    if u = v then 1 else 0 := by
  simp only [State.sessions, State.take, List.countP_append, List.countP_singleton]
  simp

theorem Inv.take (h : Inv cfg s tokens) (hu : u ∈ s.entries) (hx : s.upstreams[u]? = some x)
    (hstatus : x.status = .selectable) (hlt : x.active < cfg.sessionsPerUpstream) :
    Inv cfg (s.take u) tokens := by
  have ⟨_, hd, _⟩ := (h.fits u x hx).listed hu
  refine h.change (f := fun x => { x with active := x.active + 1 }) hx rfl
    (fun _ _ => .rfl) h.nodup ?_
    (fun _ _ => ⟨rfl, .rfl⟩) ?_ ?_ (h.acquired.take hx hstatus hd)
    (h.growth.congr rfl rfl rfl rfl le_rfl fun _ => rfl)
  · intro v hv
    rw [sessions_take, if_neg (Ne.symm hv), add_zero]
  · rw [h.dialing, has_eq hx]
  · intro hf
    rw [sessions_take, if_pos rfl, ← hf.active]
    exact ⟨fun _ => ⟨.inl hstatus, (hf.listed hu).right⟩, hf.unlisted, hf.failed, hf.due,
      hf.closing, hf.closes,
      rfl, hlt⟩

theorem mem_modify {acquisitions : List Acquisition} (ha : acquisitions[k]? = some a)
    (h : b ∈ acquisitions.modify k g) : b = g a ∨ b ∈ acquisitions := by
  have ⟨j, hj⟩ := List.mem_iff_getElem?.mp h
  by_cases he : j = k
  case pos =>
    cases he
    rw [List.getElem?_modify_eq, ha] at hj
    cases hj
    exact .inl rfl
  case neg =>
    rw [List.getElem?_modify_ne _ _ (Ne.symm he)] at hj
    exact .inr (List.mem_of_getElem? hj)

-- The release of an acquisition goes on.
theorem Acquired.modify {g : Acquisition → Acquisition} (h : Acquired s tokens)
    (ha : s.acquisitions[k]? = some a) (hs : s'.acquisitions = s.acquisitions.modify k g)
    (hhas : ∀ v, s.has v (!·.dialing) → s'.has v (!·.dialing))
    (hupstream : (g a).upstream = a.upstream)
    (hstatus : (g a).status = a.status) (hreleased : (g a).released → (g a).once)
    (hk : tokens'.count (.once k) = if (g a).once && !(g a).released then 1 else 0)
    (hothers : ∀ j, j ≠ k → tokens'.count (.once j) = tokens.count (.once j)) :
    Acquired s' tokens' := by
  have hmem := List.mem_of_getElem? ha
  refine ⟨?_, ?_, ?_, ?_⟩
  · intro b hb
    rcases mem_modify ha (hs ▸ hb) with rfl | hb
    · exact hstatus ▸ h.status a hmem
    · exact h.status b hb
  · intro b hb
    rcases mem_modify ha (hs ▸ hb) with rfl | hb
    · exact hhas _ (hupstream ▸ h.dialed a hmem)
    · exact hhas _ (h.dialed b hb)
  · intro b hb
    rcases mem_modify ha (hs ▸ hb) with rfl | hb
    · exact hreleased
    · exact h.released b hb
  · intro j
    by_cases he : j = k
    case pos =>
      cases he
      rw [hk, hs, List.getElem?_modify_eq, ha]
      rfl
    case neg =>
      rw [hothers j he, hs, List.getElem?_modify_ne _ _ (Ne.symm he)]
      exact h.once j

-- A release happens once.
theorem Inv.once (h : Inv cfg s tokens) (ha : s.acquisitions[k]? = some a)
    (honce : a.once = false) :
    Inv cfg { s with acquisitions := s.acquisitions.modify k fun x => { x with once := true } }
      ({.once k} + tokens) := by
  have hreleased : a.released = false := by
    rw [← Bool.not_eq_true]
    intro hr
    rw [h.acquired.released a (List.mem_of_getElem? ha) hr] at honce
    contradiction
  have hcount : tokens.count (.once k) = 0 := by
    rw [h.acquired.once, ha, Option.any_some, honce]
    rfl
  refine ⟨fun u x hx => ?_, fun u hu => ?_, h.nodup, fun u => ?_, ?_,
    h.growth.congr rfl rfl rfl rfl le_rfl (by simp)⟩
  · have hsessions : State.sessions { s with
        acquisitions := s.acquisitions.modify k fun x => { x with once := true } } u =
          s.sessions u :=
      Tally.countP_modify_of_eq fun _ => rfl
    simp only [hsessions, mem_singleton_add, reduceCtorEq, false_or]
    exact h.fits u x hx
  · simp only [mem_singleton_add, reduceCtorEq, false_or]
    exact h.known u hu
  · simp only [count_singleton_add, reduceCtorEq, if_false, zero_add]
    exact h.dialing u
  · refine h.acquired.modify (g := fun x => { x with once := true }) ha rfl (fun _ => id) rfl rfl
      (fun _ => rfl)
      ?_ fun j hj => ?_
    · simp [hcount, hreleased]
    · simp [hj]

theorem Inv.exists_of_once (h : Inv cfg s ({.once k} + tokens)) :
    ∃ a, s.acquisitions[k]? = some a ∧ a.once ∧ a.released = false ∧
      tokens.count (.once k) = 0 := by
  have hcount := h.acquired.once k
  rw [count_singleton_add, if_pos rfl] at hcount
  split at hcount
  case isTrue hd =>
    cases ha : s.acquisitions[k]?
    case none => simp [ha] at hd
    case some a =>
      simp only [ha, Option.any_some, Bool.and_eq_true, Bool.not_eq_true'] at hd
      exact ⟨a, rfl, hd.left, hd.right, by omega⟩
  case isFalse => omega

-- What `State.release` does before the upstream may leave.
def State.drop (s : State) (u k : Nat) : State :=
  { s.update u fun x => { x with active := x.active - 1 } with
    acquisitions := s.acquisitions.modify k fun x => { x with released := true } }

theorem sessions_drop (ha : s.acquisitions[k]? = some a) (hr : a.released = false) (v : Nat) :
    (s.drop u k).sessions v + (if a.upstream = v then 1 else 0) = s.sessions v := by
  have hcount := Tally.countP_modify (p := fun k => k.upstream = v && !k.released)
    (f := fun x : Acquisition => { x with released := true }) ha
  simp only [hr, Bool.not_false, Bool.and_true, decide_eq_true_eq, Bool.not_true, Bool.and_false,
    Bool.false_eq_true, if_false, add_zero] at hcount
  exact hcount

theorem Inv.exists_of_acquisition (h : Inv cfg s tokens) (ha : s.acquisitions[k]? = some a) :
    ∃ x, s.upstreams[a.upstream]? = some x ∧ x.dialing = false := by
  have ⟨x, hx, hd⟩ := exists_of_has (h.acquired.dialed a (List.mem_of_getElem? ha))
  exact ⟨x, hx, by simpa using hd⟩

theorem Fits.drop (h : Fits cfg x entry (n + 1) closer) (hstays : x.status = .selectable ∨
    1 < x.active) : Fits cfg { x with active := x.active - 1 } entry n closer where
  listed := by
    intro he
    have ⟨hstatus, hrest⟩ := h.listed he
    refine ⟨?_, hrest⟩
    rcases hstays with hs | hs
    · exact .inl hs
    · exact hstatus.imp_right fun hd => ⟨hd.left, Nat.sub_pos_of_lt hs⟩
  unlisted := h.unlisted
  failed := h.failed
  due := h.due
  closing := h.closing
  closes := h.closes
  active := Nat.sub_eq_of_eq_add h.active
  limit := (Nat.sub_le ..).trans h.limit

theorem Inv.release (h : Inv cfg s ({.once k} + tokens)) :
    Inv cfg (s.release cfg k).snd
      (leaving (s.release cfg k).fst.fst + growing (s.release cfg k).fst.snd + tokens) := by
  obtain ⟨a, ha, honce, hr, hcount⟩ := h.exists_of_once
  obtain ⟨x, hx, hd⟩ := h.exists_of_acquisition ha
  simp only [State.release, ha]
  have hsessions := sessions_drop (u := a.upstream) ha hr
  have hlast : s.sessions a.upstream = (s.drop a.upstream k).sessions a.upstream + 1 := by
    rw [← hsessions a.upstream, if_pos rfl]
  have hx' : (s.drop a.upstream k).upstreams[a.upstream]? =
      some { x with active := x.active - 1 } := by
    simp only [State.drop, State.update, List.getElem?_modify_eq, hx]
    rfl
  have hhas (v : Nat) : s.has v (!·.dialing) → (s.drop a.upstream k).has v (!·.dialing) :=
    has_modify (f := fun x => { x with active := x.active - 1 }) hx rfl id
  refine Inv.leave (h.retire (f := fun x => { x with active := x.active - 1 })
    (s.drop a.upstream k) hx rfl rfl
    ?_ rfl ?_ ?_ ?_ ?_ ?_)
  · intro v hv
    have hv := if_neg (Ne.symm hv) ▸ hsessions v
    exact hv
  · intro v
    simp
  · intro hstays closer hf
    change State.has (s.drop a.upstream k) _ _ = false at hstays
    rw [hlast] at hf
    refine hf.drop ?_
    rw [has_eq hx'] at hstays
    simp only [Bool.and_eq_false_iff, decide_eq_false_iff_not, not_not] at hstays
    exact hstays.imp_right fun hne => by omega
  · intro _ closer hf
    rw [hlast] at hf
    exact .of_due (fun hd' => absurd (hd.symm.trans hd') (by rintro ⟨⟩)) hf.closes.left
      (Nat.sub_eq_of_eq_add hf.active) ((Nat.sub_le ..).trans hf.limit)
  · refine h.acquired.modify (g := fun x => { x with released := true }) ha rfl hhas rfl rfl
      (fun _ => honce)
      ?_ fun j hj => ?_
    · simpa using hcount
    · simp [hj]
  · exact h.growth.congr rfl rfl rfl rfl le_rfl (by simp)

theorem Inv.markDraining (h : Inv cfg s tokens) :
    Inv cfg (s.markDraining cfg k).snd
      (leaving (s.markDraining cfg k).fst.fst + growing
      (s.markDraining cfg k).fst.snd + tokens) := by
  unfold State.markDraining
  split
  case h_1 => simpa [leaving, growing] using h
  case h_2 a ha =>
    obtain ⟨x, hx, hd⟩ := h.exists_of_acquisition ha
    have hx' :
        (s.update a.upstream fun x => { x with status := .draining }).upstreams[a.upstream]? =
        some { x with status := .draining } := by
      rw [State.update, List.getElem?_modify_eq, hx]
      rfl
    dsimp only
    split
    case isFalse => simpa [leaving, growing] using h
    case isTrue =>
      refine Inv.leave (h.retire (f := fun x => { x with status := .draining })
        (s.update a.upstream fun x => { x with status := .draining }) hx rfl rfl
          (fun _ _ => rfl) rfl
        (fun _ => ⟨rfl, .rfl⟩) ?_ ?_ ?_ (h.growth.congr rfl rfl rfl rfl le_rfl fun _ => rfl))
      · intro hstays closer hf
        rw [has_eq hx', decide_eq_false_iff_not] at hstays
        exact ⟨fun he => ⟨.inr ⟨rfl, Nat.pos_of_ne_zero hstays⟩, (hf.listed he).right⟩, hf.unlisted,
          fun hd' => absurd (hd.symm.trans hd') (by rintro ⟨⟩), hf.due, hf.closing, hf.closes,
            hf.active, hf.limit⟩
      · intro _ closer hf
        exact .of_due (fun hd' => absurd (hd.symm.trans hd') (by rintro ⟨⟩)) hf.closes.left
          hf.active hf.limit
      · exact h.acquired.congr rfl
          (fun v => has_modify (f := fun x => { x with status := .draining }) hx rfl id)
          fun _ => rfl

theorem Inv.markFailed (h : Inv cfg s tokens) :
    Inv cfg (s.markFailed cfg u).snd
      (leaving (s.markFailed cfg u).fst.fst + growing (s.markFailed cfg u).fst.snd + tokens) := by
  unfold State.markFailed
  split
  case isFalse => simpa [leaving, growing] using h
  case isTrue hs =>
    obtain ⟨x, hx, _⟩ := exists_of_has hs
    refine Inv.leave (h.retire (f := fun x => { x with status := .failed })
      (s.update u fun x => { x with status := .failed }) hx rfl rfl (fun _ _ => rfl) rfl
      (fun _ => ⟨rfl, .rfl⟩) (by rintro ⟨⟩) ?_ ?_
      (h.growth.congr rfl rfl rfl rfl le_rfl fun _ => rfl))
    · exact fun _ closer hf => .of_due (fun _ => rfl) hf.closes.left hf.active hf.limit
    · exact h.acquired.congr rfl
        (fun v => has_modify (f := fun x => { x with status := .failed }) hx rfl id)
        fun _ => rfl

theorem Inv.cancel (h : Inv cfg s tokens) : Inv cfg { s with cancelled := true } tokens :=
  h.of_growth rfl rfl rfl (fun _ _ => rfl) (h.growth.congr rfl rfl rfl rfl le_rfl fun _ => rfl)

end Sessions

section Closing

def closers (us : List Nat) : Multiset Token :=
  (us.map Token.closing : List Token)

theorem mem_closers : .closing u ∈ closers us ↔ u ∈ us := by
  simp [closers]

theorem count_closers (ht : ∀ v, t ≠ .closing v) :
    (closers us + tokens).count t = tokens.count t := by
  have hnot : t ∉ closers us := by
    simpa [closers] using fun v _ he => ht v he.symm
  rw [Multiset.count_add, Multiset.count_eq_zero.mpr hnot, zero_add]

-- All upstreams of the list are to be closed.
def State.clear (s : State) : State :=
  { s with
    closed := true
    upstreams := s.upstreams.zipIdx.map fun (x, u) =>
      if u ∈ s.entries then { x with due := true } else x
    entries := [] }

theorem clear_upstreams : s.clear.upstreams[u]? =
    s.upstreams[u]?.map fun x => if u ∈ s.entries then { x with due := true } else x := by
  simp only [State.clear, List.getElem?_map, List.getElem?_zipIdx, Option.map_map]
  simp [Function.comp_def]

theorem clear_has (hs : s'.upstreams = s.clear.upstreams)
    (hp : ∀ x, p { x with due := true } = p x) : s'.has u p = s.has u p := by
  simp only [State.has, hs, clear_upstreams]
  cases s.upstreams[u]?
  case none => rfl
  case some x =>
    split
    case isTrue => exact hp x
    case isFalse => rfl

theorem Inv.clear (h : Inv cfg s tokens) (hgrowth : Growth cfg s' (closers s.entries + tokens))
    (hupstreams : s'.upstreams = s.clear.upstreams) (hentries : s'.entries = [])
    (hacquisitions : s'.acquisitions = s.acquisitions) :
    Inv cfg s' (closers s.entries + tokens) where
  fits := by
    intro u y hy
    rw [hupstreams, clear_upstreams] at hy
    obtain ⟨x, hx, hy⟩ := Option.map_eq_some_iff.mp hy
    have hf := h.fits u x hx
    have hsessions : s'.sessions u = s.sessions u := by
      rw [State.sessions, hacquisitions]
      rfl
    simp only [hentries, List.not_mem_nil, hsessions, Multiset.mem_add, mem_closers]
    split at hy
    case isTrue hu =>
      subst hy
      simp only [hu, true_or]
      obtain ⟨_, hd, _⟩ := hf.listed hu
      exact .of_due (fun hd' => absurd (hd.symm.trans hd') (by rintro ⟨⟩)) hf.closes.left
        hf.active hf.limit
    case isFalse hu =>
      subst hy
      simp only [hu, false_or]
      exact ⟨(by rintro ⟨⟩), fun _ => hf.unlisted hu, hf.failed, hf.due, hf.closing, hf.closes,
        hf.active, hf.limit⟩
  known := by
    intro u hu
    have hlength : s'.upstreams.length = s.upstreams.length := by
      rw [hupstreams]
      simp [State.clear]
    obtain ⟨hentry, hclosing⟩ := h.known u (hlength ▸ hu)
    simp only [hentries, List.not_mem_nil, not_false_eq_true, Multiset.mem_add, mem_closers,
      hentry, hclosing,
      or_self, and_self]
  nodup := hentries ▸ .nil
  dialing := by
    intro u
    rw [count_closers (by simp), h.dialing, clear_has hupstreams fun _ => rfl]
  acquired := by
    refine h.acquired.congr hacquisitions (fun v hv => ?_) fun k => count_closers (by simp)
    rwa [clear_has hupstreams fun _ => rfl]
  growth := hgrowth

theorem Inv.closePool (h : Inv cfg s tokens) :
    Inv cfg s.closePool.snd (closers s.closePool.fst + tokens) := by
  have hcount (g : Nat) : (closers s.entries + tokens).count (.growth g) =
      tokens.count (.growth g) :=
    count_closers (by simp)
  have hmem (g : Nat) : .growth g ∈ closers s.entries + tokens ↔ .growth g ∈ tokens := by
    rw [← Multiset.count_pos, ← Multiset.count_pos, hcount]
  unfold State.closePool
  split
  case isTrue => simpa [closers] using h
  case isFalse =>
    cases hdone : s.growthDone
    case none =>
      refine h.clear ⟨fun _ => nofun, fun _ _ => .inr rfl, ?_, ?_, nofun,
        Nat.zero_le _, ?_⟩
        rfl rfl rfl
      · exact fun g => hcount g ▸ h.growth.single g
      · exact fun g hg => h.growth.known g ((hmem g).mp hg)
      · intro g
        have hg := h.growth.closings g
        rw [hdone] at hg
        exact hg
    case some =>
      refine h.clear ⟨fun _ => nofun, fun _ _ => .inr rfl, ?_, ?_, nofun,
        Nat.zero_le _, ?_⟩
        rfl rfl rfl
      · exact fun g => hcount g ▸ h.growth.single g
      · exact fun g hg => h.growth.known g ((hmem g).mp hg)
      · exact fun g => closings_finish hdone (h.growth.closings g)

end Closing

end GizClaw.UpstreamPool

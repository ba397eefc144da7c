import GizClaw.KeyedLock.Locker

-- Every lock has at most one owner, and the table has an entry exactly for the keys that somebody
-- refers to.

namespace GizClaw.KeyedLock

variable {K : Type} {l l' : Locker K} {c : Caller K} {cs : List (Caller K)} {phase : Phase}
variable {i item : Nat} {f : Phase → Option Nat}

attribute [local simp] Locker.modify Locker.releaseReference Phase.owned

section Locker

@[grind =]
theorem heap_modify (g : Entry → Entry) (x : Nat) :
    (l.modify item g).heap x = if x = item then g (l.heap x) else l.heap x := by
  by_cases hx : x = item <;> simp [hx]

@[grind =]
theorem entries_modify (g : Entry → Entry) (k : K) : (l.modify item g).entries k = l.entries k :=
  rfl

@[grind =]
theorem made_modify (g : Entry → Entry) : (l.modify item g).made = l.made :=
  rfl

variable [DecidableEq K]

@[grind =]
theorem heap_releaseReference (key : K) (x : Nat) : (l.releaseReference key item).heap x =
    (l.modify item fun e => { e with refs := e.refs - 1 }).heap x := by
  simp only [Locker.releaseReference]
  split <;> rfl

@[grind =]
theorem entries_releaseReference (key k : K) : (l.releaseReference key item).entries k =
    if k = key ∧ (l.heap item).refs = 1 ∧ l.entries key = some item then none else l.entries k := by
  have hr : (l.heap item).refs - 1 = 0 ↔ (l.heap item).refs = 1 := by omega
  by_cases hd : (l.heap item).refs = 1 ∧ l.entries key = some item
  case pos => simp [hd, Function.update_apply]
  case neg => simp [hr, hd]

@[grind =]
theorem made_releaseReference (key : K) : (l.releaseReference key item).made = l.made := by
  simp only [Locker.releaseReference]
  split <;> rfl

end Locker

variable [DecidableEq K]

-- How many callers for a key have a part in an entry.
def count (f : Phase → Option Nat) (cs : List (Caller K)) (k : K) (item : Nat) : Nat :=
  cs.countP fun c => c.key = k ∧ f c.phase = some item

theorem count_setPhase (hi : cs[i]? = some c) (phase : Phase) (f : Phase → Option Nat) (k : K)
    (x : Nat) :
    count f (cs.modify i ({ · with phase })) k x +
        (if c.key = k ∧ f c.phase = some x then 1 else 0) =
      count f cs k x + if c.key = k ∧ f phase = some x then 1 else 0 := by
  have h := Tally.countP_modify (p := fun c : Caller K => c.key = k ∧ f c.phase = some x)
    (f := ({ · with phase })) hi
  simp only [decide_eq_true_eq] at h
  exact h

theorem owned_item {p : Phase} (h : p.owned = some item) : p.item = some item := by
  cases p <;> first | exact h | cases h

theorem count_owned_le (cs : List (Caller K)) (k : K) (x : Nat) :
    count Phase.owned cs k x ≤ count Phase.item cs k x := by
  refine List.countP_mono_left fun c _ h => ?_
  simp only [decide_eq_true_eq] at h ⊢
  exact ⟨h.left, owned_item h.right⟩

theorem count_pos_iff : 0 < count f cs k x ↔ ∃ c ∈ cs, c.key = k ∧ f c.phase = some x := by
  simp [count, List.countP_pos_iff]

-- References go to the entry that is in the table, and an entry in the table has references.
structure Inv (l : Locker K) (cs : List (Caller K)) : Prop where
  refs : ∀ k x, l.entries k = some x → (l.heap x).refs = count Phase.item cs k x ∧
    0 < count Phase.item cs k x
  token : ∀ k x, l.entries k = some x →
    count Phase.owned cs k x = if (l.heap x).token then 1 else 0
  current : ∀ k x, 0 < count Phase.item cs k x → l.entries k = some x
  made : ∀ k x, l.entries k = some x → x < l.made
  distinct : ∀ k k' x, l.entries k = some x → l.entries k' = some x → k = k'

theorem inv_init : Inv ({} : Locker K) [] where
  refs := fun _ _ h => nomatch h
  token := fun _ _ h => nomatch h
  current := fun _ _ h => absurd h (lt_irrefl 0)
  made := fun _ _ h => nomatch h
  distinct := fun _ _ _ h => nomatch h

section Steps

variable (h : Inv l cs)
include h

theorem Inv.here (hc : c ∈ cs) (hx : c.phase.item = some x) : l.entries c.key = some x :=
  h.current _ _ (count_pos_iff.mpr ⟨c, hc, rfl, hx⟩)

theorem Inv.congr (hcount : ∀ f, f .calling = none → ∀ k x, count f cs' k x = count f cs k x) :
    Inv l cs' := by
  have hitem := hcount Phase.item rfl
  have howned := hcount Phase.owned rfl
  exact ⟨by simpa only [hitem] using h.refs, by simpa only [howned] using h.token,
    by simpa only [hitem] using h.current, h.made, h.distinct⟩

-- A change to one entry, and to the references that the callers for one key have to it.
theorem Inv.change (key : K) (item : Nat)
    (hfound : l.entries key = some item ∨ l.entries key = none ∧ l.made ≤ item)
    (hitem : ∀ k x, ¬(k = key ∧ x = item) → count Phase.item cs' k x = count Phase.item cs k x)
    (howned : ∀ k x, ¬(k = key ∧ x = item) → count Phase.owned cs' k x = count Phase.owned cs k x)
    (hheap : ∀ x, x ≠ item → l'.heap x = l.heap x)
    (hrefs : (l'.heap item).refs = count Phase.item cs' key item)
    (htoken : count Phase.owned cs' key item = if (l'.heap item).token then 1 else 0)
    (hentries : ∀ k, l'.entries k = if k = key then
      if count Phase.item cs' key item = 0 then none else some item else l.entries k)
    (hmade : l.made ≤ l'.made ∧ item < l'.made) : Inv l' cs' := by
  obtain ⟨hrefs', htoken', hcurrent', hmade', hdistinct'⟩ := h
  constructor
  case refs => grind
  case token => grind
  case current => grind
  case made => grind
  case distinct => grind

end Steps

-- What one move does, by the reference and the token that the caller has before and after it.
inductive Moved (l : Locker K) (c : Caller K) : Locker K → Phase → Prop
  | enter (hc : c.phase = .calling) :
    Moved l c (l.takeReference c.key).snd (.waiting (l.takeReference c.key).fst)
  | take {item : Nat} (hc : c.phase = .waiting item) (ht : (l.heap item).token = false) :
    Moved l c (l.setToken item true) (.granted item)
  | give {item : Nat} {phase : Phase} (hi : c.phase.item = some item)
    (ho : c.phase.owned = some item) (hi' : phase.item = some item) (ho' : phase.owned = none) :
    Moved l c (l.setToken item false) phase
  | stay {phase : Phase} (hi : phase.item = c.phase.item) (ho : phase.owned = c.phase.owned) :
    Moved l c l phase
  | leave {item : Nat} {phase : Phase} (hi : c.phase.item = some item) (ho : c.phase.owned = none)
    (hi' : phase.item = none) (ho' : phase.owned = none) :
    Moved l c (l.releaseReference c.key item) phase

theorem moved_of_move (h : c.move l move = some (l', phase)) : Moved l c l' phase := by
  obtain ⟨key, cancelled, current⟩ := c
  cases move <;> cases current <;> simp only [Caller.move, Option.ite_none_left_eq_some,
    Option.ite_none_right_eq_some, Option.some.injEq, Prod.mk.injEq, reduceCtorEq] at h
  case go.calling => obtain ⟨rfl, rfl⟩ := h; exact .enter rfl
  case go.waiting => obtain ⟨ht, rfl, rfl⟩ := h; exact .take rfl (Bool.eq_false_iff.mpr ht)
  case go.granted =>
    obtain ⟨rfl, rfl⟩ := h
    cases cancelled <;> exact .stay rfl rfl
  case go.revoked => obtain ⟨_, rfl, rfl⟩ := h; exact .give rfl rfl rfl rfl
  case go.leaving => obtain ⟨rfl, rfl⟩ := h; exact .leave rfl rfl rfl rfl
  case go.unlocking => obtain ⟨rfl, rfl⟩ := h; exact .leave rfl rfl rfl rfl
  case done.waiting => obtain ⟨_, rfl, rfl⟩ := h; exact .stay rfl rfl
  case unlock.holding => obtain ⟨_, rfl, rfl⟩ := h; exact .give rfl rfl rfl rfl
  case unlock.unlocking => obtain ⟨rfl, rfl⟩ := h; exact .stay rfl rfl
  case unlock.unlocked => obtain ⟨rfl, rfl⟩ := h; exact .stay rfl rfl

theorem Inv.moved (h : Inv l cs) (hi : cs[i]? = some c) (hm : Moved l c l' phase) :
    Inv l' (cs.modify i ({ · with phase })) := by
  have hitem := count_setPhase hi phase Phase.item
  have howned := count_setPhase hi phase Phase.owned
  have hhere : ∀ x, c.phase.item = some x → l.entries c.key = some x :=
    fun x => h.here (List.mem_of_getElem? hi)
  cases hm
  case enter hc =>
    have hle := count_owned_le cs c.key
    simp only [hc, Phase.item, Phase.owned] at hitem howned
    cases hk : l.entries c.key
    case some item =>
      simp only [Locker.takeReference, Locker.lookup, hk] at hitem howned ⊢
      apply h.change c.key item (.inl hk) <;> grind [Inv]
    case none =>
      -- Nobody can have a reference to an entry that is made now.
      simp only [Locker.takeReference, Locker.lookup, hk] at hitem howned ⊢
      apply h.change c.key l.made (.inr ⟨hk, le_rfl⟩) <;> grind [Inv]
  case take item hc ht =>
    simp only [hc, Phase.item, Phase.owned] at hitem howned hhere
    apply h.change c.key item (.inl (hhere item rfl)) <;> grind [Locker.setToken, Inv]
  case give item hc ho hp ho' =>
    simp only [hc, ho, hp, ho'] at hitem howned hhere
    apply h.change c.key item (.inl (hhere item rfl)) <;> grind [Locker.setToken, Inv]
  case stay hi' ho =>
    simp only [hi', ho, Nat.add_right_cancel_iff] at hitem howned
    exact ⟨by simpa only [hitem] using h.refs, by simpa only [howned] using h.token,
      by simpa only [hitem] using h.current, h.made, h.distinct⟩
  case leave item hc ho hp ho' =>
    simp only [hc, ho, hp, ho'] at hitem howned hhere
    apply h.change c.key item (.inl (hhere item rfl)) <;> grind [Inv]

theorem Inv.step {s : System K} (h : Inv s.locker s.callers) (e : Event K) :
    Inv (s.step e).locker (s.step e).callers := by
  cases e
  case acquire => exact h.congr fun f hf k x => by simp [count, System.step, hf]
  case cancel => exact h.congr fun f _ k x => Tally.countP_modify_of_eq fun _ => rfl
  case move =>
    simp only [System.step]
    split
    case h_1 => exact h
    case h_2 hi =>
      split
      case h_1 => exact h
      case h_2 hm => exact h.moved hi (moved_of_move hm)

theorem inv_run (events : List (Event K)) :
    Inv (System.run events).locker (System.run events).callers :=
  List.foldlRecOn (motive := fun s : System K => Inv s.locker s.callers) events System.step inv_init
    fun _ h e _ => h.step e

section Results

variable (h : Inv l cs)
include h

-- Were there two owners, there would still be one after the first of them has gone.
theorem Inv.exclusive (hi : cs[i]? = some c) (hj : cs[j]? = some d) (hkey : c.key = d.key)
    (hc : c.Owns) (hd : d.Owns) : i = j := by
  obtain ⟨x, hx⟩ := Option.isSome_iff_exists.mp hc
  obtain ⟨y, hy⟩ := Option.isSome_iff_exists.mp hd
  have hcx := h.here (List.mem_of_getElem? hi) (owned_item hx)
  have hdy := h.here (List.mem_of_getElem? hj) (owned_item hy)
  cases hcx.symm.trans (hkey ▸ hdy)
  by_contra hne
  have hlost := count_setPhase hi .failed Phase.owned c.key x
  have hleft : 0 < count Phase.owned (cs.modify i ({ · with phase := .failed })) c.key x := by
    refine count_pos_iff.mpr ⟨d, List.mem_of_getElem? (i := j) ?_, hkey.symm, hy⟩
    rw [List.getElem?_modify, hj]
    simp [hne]
  have htoken := h.token c.key x hcx
  rw [if_pos ⟨rfl, hx⟩, if_neg (by simp)] at hlost
  split at htoken <;> omega

theorem Inv.users_eq (hk : l.entries k = some item) :
    System.users ⟨l, cs⟩ k = count Phase.item cs k item := by
  refine List.countP_congr fun c hc => ?_
  simp only [decide_eq_true_eq]
  refine and_congr_right fun hkey => ⟨fun hs => ?_, fun hx => Option.isSome_iff_exists.mpr ⟨_, hx⟩⟩
  obtain ⟨x, hx⟩ := Option.isSome_iff_exists.mp hs
  rw [hx, ← hk, ← hkey, h.here hc hx]

theorem Inv.refs_eq (k : K) : (l.entries k).map (fun item => (l.heap item).refs) =
    if System.users ⟨l, cs⟩ k = 0 then none else some (System.users ⟨l, cs⟩ k : Int) := by
  cases hk : l.entries k
  case some item =>
    have hrefs := h.refs k item hk
    rw [h.users_eq hk, if_neg hrefs.right.ne', Option.map_some, hrefs.left]
  case none =>
    refine (if_pos (List.countP_eq_zero.mpr fun c hc hs => ?_)).symm
    obtain ⟨hkey, hs⟩ := of_decide_eq_true hs
    obtain ⟨x, hx⟩ := Option.isSome_iff_exists.mp hs
    cases hk.symm.trans (hkey ▸ h.here hc hx)

theorem Inv.token_iff (hk : l.entries k = some item) :
    (l.heap item).token ↔ ∃ c ∈ cs, c.key = k ∧ c.Owns := by
  have htoken : (l.heap item).token ↔ 0 < count Phase.owned cs k item := by
    rw [h.token k item hk]
    cases (l.heap item).token <;> simp
  rw [htoken, count_pos_iff]
  refine exists_congr fun c => and_congr_right fun hc => and_congr_right fun hkey =>
    ⟨fun hx => Option.isSome_iff_exists.mpr ⟨_, hx⟩, fun hs => ?_⟩
  obtain ⟨x, hx⟩ := Option.isSome_iff_exists.mp hs
  rw [hx, ← hk, ← hkey, h.here hc (owned_item hx)]

end Results

-- Whatever callers acquire, cancel and unlock in whatever order: a lock has at most one owner, the
-- table has an entry with as many references as callers hold or wait, the token of an entry is out
-- exactly while it has an owner, a failed acquisition has nothing, and an unused table is empty.
theorem locks_exclusive (events : List (Event K)) :
    let s := System.run events
    (∀ (i j : Nat) (c d : Caller K), s.callers[i]? = some c → s.callers[j]? = some d →
      c.key = d.key → c.Owns → d.Owns → i = j) ∧
    (∀ k, (s.locker.entries k).map (fun item => (s.locker.heap item).refs) =
      if s.users k = 0 then none else some (s.users k : Int)) ∧
    (∀ k item, s.locker.entries k = some item →
      ((s.locker.heap item).token ↔ ∃ c ∈ s.callers, c.key = k ∧ c.Owns)) ∧
    (∀ c ∈ s.callers, c.phase = .failed → ¬c.Owns ∧ ¬c.HoldsOrWaits) ∧
    ((∀ c ∈ s.callers, ¬c.HoldsOrWaits) → ∀ k, s.locker.entries k = none) := by
  intro s
  have h : Inv s.locker s.callers := inv_run events
  refine ⟨fun i j c d => h.exclusive, h.refs_eq, fun k item => h.token_iff, fun c hc hf => ?_,
    fun hidle k => ?_⟩
  · simp [Caller.Owns, Caller.HoldsOrWaits, hf, Phase.item]
  · refine Option.eq_none_iff_forall_ne_some.mpr fun item hk => ?_
    have ⟨c, hc, _, hx⟩ := count_pos_iff.mp (h.refs k item hk).right
    exact hidle c hc (Option.isSome_iff_exists.mpr ⟨item, hx⟩)

-- Nobody is stuck: an owner can go on or give the lock back, since the token it has sent is still
-- there, and without an owner everybody else can go on.
theorem locks_never_stuck (events : List (Event K)) :
    let s := System.run events
    (∀ c ∈ s.callers, c.Owns →
      (c.move s.locker .go).isSome ∨ (c.move s.locker .unlock).isSome) ∧
    ∀ c ∈ s.callers, c.HoldsOrWaits → (∀ d ∈ s.callers, d.key = c.key → ¬d.Owns) →
      (c.move s.locker .go).isSome := by
  intro s
  have h : Inv s.locker s.callers := inv_run events
  refine ⟨fun c hc ho => ?owner, fun c hc hs hfree => ?free⟩
  case owner =>
    obtain ⟨item, hx⟩ := Option.isSome_iff_exists.mp ho
    have ht := (h.token_iff (h.here hc (owned_item hx))).mpr ⟨c, hc, rfl, ho⟩
    cases hp : c.phase <;> rw [hp] at hx <;> cases hx
    case granted => exact .inl (by simp [Caller.move, hp])
    case revoked => exact .inl (by simp [Caller.move, hp, ht])
    case holding => exact .inr (by simp [Caller.move, hp, ht])
  case free =>
    have ho := hfree c hc rfl
    cases hp : c.phase <;>
      simp [Caller.HoldsOrWaits, Caller.Owns, hp, Phase.item] at hs ho
    case leaving | unlocking => simp [Caller.move, hp]
    case waiting item =>
      have ht : ¬(s.locker.heap item).token := fun ht =>
        have ⟨d, hd, hkey, ho⟩ := (h.token_iff (h.here hc (by rw [hp]; rfl))).mp ht
        hfree d hd hkey ho
      simp [Caller.move, hp, ht]

end GizClaw.KeyedLock

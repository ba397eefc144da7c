import GizClaw.APIKey.Server
import GizClaw.KV.Theorems.Typed

-- What holds of all keys in the store, and what may change about them.

namespace GizClaw.APIKey

open PendingDeletion (Text)
open KV.Typed (Mutation)
open KV.Typed.Store (applyMutation_eq_some lookup_applyMutation mem_applyMutation)

attribute [local simp] KV.Typed.Mutation.groups createMutation KV.Typed.Names cleanupMutation
  State.set

-- A record, its entry in the index of secrets and its place among the keys of its owner come
-- together.
structure Whole (σ : Store) : Prop where
  record : ∀ name v, σ (.record name) = some v → ∃ item : Key, v = .record (.key item) ∧
    item.name = name ∧ σ (.secret item.apiKey) = some (.record (.name name)) ∧
    name ∈ σ.members false (.owner item.owner)
  secret : ∀ secret v, σ (.secret secret) = some v → ∃ item : Key, v = .record (.name item.name) ∧
    item.apiKey = secret ∧ σ (.record item.name) = some (.record (.key item))
  member : ∀ owner, ∀ name ∈ σ.members false (.owner owner), ∃ item : Key, item.name = name ∧
    item.owner = owner ∧ σ (.record name) = some (.record (.key item))

structure Inv (s : State) : Prop where
  whole : Whole s.store
  names : ∀ name, s.store (.record name) ≠ none → name ∈ s.names
  secrets : ∀ secret, s.store (.secret secret) ≠ none → secret ∈ s.secrets
  limit : ∀ owner, (s.store.members false (.owner owner)).card ≤ peerAPIKeyLimit

-- Under names and secrets that were generated before, nothing new is stored. A retired owner gets
-- no more keys, and the keys of an owner change only by mutations that are requested for this
-- owner.
structure Next (s s' : State) : Prop where
  names : s.names ⊆ s'.names
  secrets : s.secrets ⊆ s'.secrets
  record : ∀ name ∈ s.names, ∀ v ∈ s'.store (.record name), s.store (.record name) = some v
  secret : ∀ secret ∈ s.secrets, ∀ v ∈ s'.store (.secret secret), s.store (.secret secret) = some v
  retired : ∀ owner, s.store (.retired owner) ≠ none → s'.store (.retired owner) ≠ none ∧
    s'.store.members false (.owner owner) ⊆ s.store.members false (.owner owner)
  log : ∃ owners, s'.log = s.log ++ owners ∧ ∀ item : Key, item.owner ∉ owners →
    (s'.store (.record item.name) = some (.record (.key item)) ↔
      s.store (.record item.name) = some (.record (.key item)))

theorem Next.refl (s : State) : Next s s where
  names := subset_rfl
  secrets := subset_rfl
  record := fun _ _ _ h => h
  secret := fun _ _ _ h => h
  retired := fun _ h => ⟨h, subset_rfl⟩
  log := ⟨[], (List.append_nil _).symm, fun _ _ => Iff.rfl⟩

theorem Next.trans (h : Next s₁ s₂) (h' : Next s₂ s₃) : Next s₁ s₃ where
  names := h.names.trans h'.names
  secrets := h.secrets.trans h'.secrets
  record := fun n hn v hv => h.record n hn v (h'.record n (h.names hn) v hv)
  secret := fun x hx v hv => h.secret x hx v (h'.secret x (h.secrets hx) v hv)
  retired := fun o ho =>
    have ⟨ho', hm⟩ := h.retired o ho
    have ⟨ho'', hm'⟩ := h'.retired o ho'
    ⟨ho'', hm'.trans hm⟩
  log := by
    have ⟨l, hl, hk⟩ := h.log
    have ⟨l', hl', hk'⟩ := h'.log
    refine ⟨l ++ l', by rw [hl', hl, List.append_assoc], fun item ho => ?_⟩
    simp only [List.mem_append, not_or] at ho
    exact (hk' item ho.right).trans (hk item ho.left)

-- A key that was read once. If there is anything left of it, it is this.
structure Known (s : State) (item : Key) : Prop where
  name : item.name ∈ s.names
  apiKey : item.apiKey ∈ s.secrets
  record : ∀ v ∈ s.store (.record item.name), v = .record (.key item)
  secret : ∀ v ∈ s.store (.secret item.apiKey), v = .record (.name item.name)

-- A name whose record is gone for good.
structure Gone (s : State) (name : Text) : Prop where
  drawn : name ∈ s.names
  record : s.store (.record name) = none

-- A retired owner without keys.
structure Cleared (s : State) (owner : Text) : Prop where
  retired : s.store (.retired owner) ≠ none
  members : s.store.members false (.owner owner) = ∅

section Facts

variable {s s' : State} {item : Key} {name owner : Text}

theorem Known.next (h : Known s item) (hn : Next s s') : Known s' item where
  name := hn.names h.name
  apiKey := hn.secrets h.apiKey
  record := fun v hv => h.record v (hn.record _ h.name v hv)
  secret := fun v hv => h.secret v (hn.secret _ h.apiKey v hv)

theorem Gone.next (h : Gone s name) (hn : Next s s') : Gone s' name where
  drawn := hn.names h.drawn
  record := by
    refine Option.eq_none_iff_forall_not_mem.mpr fun v hv => ?_
    exact absurd (hn.record _ h.drawn v hv) (by simp [h.record])

theorem Cleared.next (h : Cleared s owner) (hn : Next s s') : Cleared s' owner where
  retired := (hn.retired owner h.retired).left
  members := Finset.subset_empty.mp (h.members ▸ (hn.retired owner h.retired).right)

theorem Inv.known (h : Inv s) (hr : s.store (.record item.name) = some (.record (.key item))) :
    Known s item := by
  have ⟨k, hk, _, hs, _⟩ := h.whole.record _ _ hr
  cases hk
  constructor
  case name => exact h.names _ (by simp [hr])
  case apiKey => exact h.secrets _ (by simp [hs])
  case record => exact fun v hv => (Option.some.inj (hr.symm.trans hv)).symm
  case secret => exact fun v hv => (Option.some.inj (hs.symm.trans hv)).symm

-- Nothing of the keys of a cleared owner is left.
theorem Inv.owner_ne (h : Inv s) (hc : Cleared s owner)
    (hr : s.store (.record item.name) = some (.record (.key item))) : item.owner ≠ owner := by
  rintro rfl
  have ⟨k, hk, _, _, hm⟩ := h.whole.record _ _ hr
  cases hk
  rw [hc.members] at hm
  exact absurd hm (Finset.notMem_empty _)

end Facts

section Create

variable {σ σ' : Store} {item : Key}

theorem applyLimited_eq_some (h : σ.applyLimited m limits = .ok (some σ')) :
    σ.applyMutation m = .ok (some σ') ∧ ∀ l ∈ limits, ¬σ.Exceeds σ' l := by
  unfold KV.Typed.Store.applyLimited at h
  split at h
  case h_2 hno => exact absurd h (hno _)
  case h_1 hm =>
    have ⟨hl, h⟩ := Except.ite_error_eq_ok.mp h
    cases h
    exact ⟨hm, fun l hl' he => hl ⟨l, hl', he⟩⟩

theorem createMutation_groups : ∀ g ∈ (createMutation item).groups, g.key = .owner item.owner := by
  simp

-- What the mutation that stores a new key leaves behind.
structure Created (σ σ' : Store) (item : Key) : Prop where
  absent : σ (.record item.name) = none ∧ σ (.secret item.apiKey) = none ∧
    σ (.retired item.owner) = none
  record : ∀ n, σ' (.record n) =
    if n = item.name then some (.record (.key item)) else σ (.record n)
  secret : ∀ x, σ' (.secret x) =
    if x = item.apiKey then some (.record (.name item.name)) else σ (.secret x)
  retired : ∀ o, σ' (.retired o) = σ (.retired o)
  members : ∀ o n, n ∈ σ'.members false (.owner o) ↔
    n ∈ σ.members false (.owner o) ∨ o = item.owner ∧ n = item.name

theorem createMutation_apply (h : σ.applyMutation (createMutation item) = .ok (some σ')) :
    Created σ σ' item := by
  have hput : ∀ k, σ.putAll (createMutation item).entries k =
      if k = .secret item.apiKey then some (.record (.name item.name))
      else if k = .record item.name then some (.record (.key item)) else σ k := by
    intro k
    simp only [KV.Typed.Store.putAll, createMutation, List.foldl_cons, List.foldl_nil,
      Function.update_apply]
  have hlookup : ∀ k, k ≠ .owner item.owner → σ' k = σ.putAll (createMutation item).entries k := by
    intro k hk
    rw [lookup_applyMutation h fun g hg => createMutation_groups g hg ▸ hk.symm]
    exact if_neg (by simp)
  constructor
  case absent =>
    have hc := (applyMutation_eq_some h).left
    simpa using hc
  case record => intro n; rw [hlookup _ (by simp), hput]; simp
  case secret => intro x; rw [hlookup _ (by simp), hput]; simp
  case retired => intro o; rw [hlookup _ (by simp), hput]; simp
  case members =>
    intro o n
    have hs : (createMutation item).Spares false (.owner o) := by
      refine ⟨by simp, by simp, fun g hg _ => ?_⟩
      simp only [KV.Typed.Mutation.groups, createMutation, List.map_cons, List.map_nil,
        List.append_nil, List.mem_singleton] at hg
      exact hg ▸ rfl
    rw [mem_applyMutation h hs]
    simp [eq_comm]

end Create

section Revoke

variable {σ σ' : Store} {owner : Text} {names : List Text} {items : List Key}

structure Removed (σ σ' : Store) (owner : Text) (names : List Text) (items : List Key) : Prop where
  record : ∀ n, σ' (.record n) = if n ∈ items.map Key.name then none else σ (.record n)
  secret : ∀ x, σ' (.secret x) = if x ∈ items.map Key.apiKey then none else σ (.secret x)
  retired : ∀ o, σ' (.retired o) = σ (.retired o)
  members : ∀ o n, n ∈ σ'.members false (.owner o) ↔
    n ∈ σ.members false (.owner o) ∧ ¬(o = owner ∧ n ∈ names)

theorem cleanupMutation_apply
    (h : σ.applyMutation (cleanupMutation owner names items) = .ok (some σ')) :
    Removed σ σ' owner names items := by
  have hgroups : ∀ g ∈ (cleanupMutation owner names items).groups, g.key = .owner owner := by
    simp
  have hlookup : ∀ k, k ≠ .owner owner → σ' k =
      if k ∈ (cleanupMutation owner names items).deleteKeys then none else σ k := by
    intro k hk
    rw [lookup_applyMutation h fun g hg => hgroups g hg ▸ hk.symm]
    rfl
  constructor
  case record => intro n; rw [hlookup _ (by simp)]; simp [eq_comm]
  case secret => intro x; rw [hlookup _ (by simp)]; simp [eq_comm]
  case retired => intro o; rw [hlookup _ (by simp)]; simp
  case members =>
    intro o n
    have hs : (cleanupMutation owner names items).Spares false (.owner o) := by
      refine ⟨by simp, by simp, fun g hg _ => ?_⟩
      simp only [KV.Typed.Mutation.groups, cleanupMutation, List.map_cons, List.map_nil,
        List.append_nil, List.nil_append, List.mem_singleton] at hg
      exact hg ▸ rfl
    rw [mem_applyMutation h hs]
    simp [eq_comm]

-- A revocation removes a single key.
theorem revokeMutation_eq (owner : Text) (item : Key) :
    revokeMutation owner item.name item = cleanupMutation owner [item.name] [item] :=
  rfl

end Revoke

section Keeps

variable {s s' : State} {item : Key} {owner : Text} {names : List Text}
variable {items : List Key}

theorem inv_init : Inv .init where
  whole := ⟨fun _ _ h => (nomatch h), fun _ _ h => (nomatch h), fun _ _ h => by
    exact absurd h (Finset.notMem_empty _)⟩
  names := fun _ h => absurd rfl h
  secrets := fun _ h => absurd rfl h
  limit := fun _ => Nat.zero_le _

theorem set_keeps (h : Inv s) (owner : Text) :
    Inv (s.set (.retired owner) .retired) ∧ Next s (s.set (.retired owner) .retired) := by
  have hstore : ∀ k, k ≠ .retired owner →
      (s.set (.retired owner) .retired).store k = s.store k :=
    fun k hk => Function.update_of_ne hk _ _
  have hmembers : ∀ o, (s.set (.retired owner) .retired).store.members false (.owner o) =
      s.store.members false (.owner o) :=
    fun o => KV.Typed.Store.members_congr (hstore _ (by simp))
  refine ⟨⟨⟨?record, ?secret, ?member⟩, ?names, ?secrets, ?limit⟩, ?next⟩
  case record =>
    intro name v hv
    have ⟨item, hv, hn, hs, hm⟩ := h.whole.record name v hv
    exact ⟨item, hv, hn, (hstore _ (by simp)).trans hs, by rwa [hmembers]⟩
  case secret =>
    intro x v hv
    have ⟨item, hv, hx, hr⟩ := h.whole.secret x v hv
    exact ⟨item, hv, hx, (hstore _ (by simp)).trans hr⟩
  case member =>
    intro o n hn
    have ⟨item, hn, ho, hr⟩ := h.whole.member o n hn
    exact ⟨item, hn, ho, (hstore _ (by simp)).trans hr⟩
  case names => intro n hn; rw [hstore _ (by simp)] at hn; exact h.names n hn
  case secrets => intro x hx; rw [hstore _ (by simp)] at hx; exact h.secrets x hx
  case limit => intro o; rw [hmembers]; exact h.limit o
  case next =>
    constructor
    case names | secrets => exact subset_rfl
    case record => intro n _ v hv; rwa [hstore _ (by simp)] at hv
    case secret => intro x _ v hv; rwa [hstore _ (by simp)] at hv
    case log =>
      refine ⟨[], (List.append_nil _).symm, fun item _ => ?_⟩
      rw [hstore _ (by simp)]
    case retired =>
      intro o ho
      refine ⟨?_, (hmembers o).subset⟩
      by_cases he : o = owner
      case pos => subst he; simp
      case neg => rwa [hstore _ (by simpa using he)]

theorem set_retired (s : State) (owner : Text) :
    (s.set (.retired owner) .retired).store (.retired owner) ≠ none := by
  simp

-- What is drawn and not used does not matter.
theorem draw_keeps (h : Inv s) (name secret : Text) :
    Inv (s.draw name secret) ∧ Next s (s.draw name secret) where
  left := ⟨h.whole, fun n hn => Finset.mem_insert_of_mem (h.names n hn),
    fun x hx => Finset.mem_insert_of_mem (h.secrets x hx), h.limit⟩
  right := { Next.refl s with
    names := Finset.subset_insert _ _
    secrets := Finset.subset_insert _ _ }

section

variable (h : Inv s) (hn : item.name ∉ s.names) (hs : item.apiKey ∉ s.secrets)
include h hn hs

theorem created_keeps (hc : Created s.store s'.store item)
    (hnames : s'.names = insert item.name s.names)
    (hsecrets : s'.secrets = insert item.apiKey s.secrets) (hlog : s'.log = s.log ++ [item.owner])
    (hlimit : ¬s.store.Exceeds s'.store (.owner item.owner, peerAPIKeyLimit)) :
    Inv s' ∧ Next s s' := by
  refine ⟨⟨⟨?record, ?secret, ?member⟩, ?names, ?secrets, ?limit⟩, ?next⟩
  case record =>
    intro n v hv
    rw [hc.record] at hv
    split at hv
    case isTrue he =>
      cases hv
      exact ⟨item, rfl, he.symm, by rw [hc.secret, if_pos rfl, he],
        (hc.members _ _).mpr (.inr ⟨rfl, he⟩)⟩
    case isFalse he =>
      have ⟨k, hv, hk, hx, hmem⟩ := h.whole.record n v hv
      refine ⟨k, hv, hk, ?_, (hc.members _ _).mpr (.inl hmem)⟩
      have hne : k.apiKey ≠ item.apiKey := fun he => hs (he ▸ h.secrets _ (by simp [hx]))
      rw [hc.secret, if_neg hne, hx]
  case secret =>
    intro x v hv
    rw [hc.secret] at hv
    split at hv
    case isTrue he =>
      cases hv
      exact ⟨item, rfl, he.symm, by rw [hc.record, if_pos rfl]⟩
    case isFalse he =>
      have ⟨k, hv, hk, hr⟩ := h.whole.secret x v hv
      have hne : k.name ≠ item.name := fun he => hn (he ▸ h.names _ (by simp [hr]))
      exact ⟨k, hv, hk, by rw [hc.record, if_neg hne, hr]⟩
  case member =>
    intro o n hmem
    rcases (hc.members o n).mp hmem with hmem | ⟨rfl, rfl⟩
    case inr => exact ⟨item, rfl, rfl, by rw [hc.record, if_pos rfl]⟩
    case inl =>
      have ⟨k, hk, ho, hr⟩ := h.whole.member o n hmem
      have hne : n ≠ item.name := fun he => hn (he ▸ h.names _ (by simp [hr]))
      exact ⟨k, hk, ho, by rw [hc.record, if_neg hne, hr]⟩
  case names =>
    intro n hne
    rw [hc.record] at hne
    split at hne
    case isTrue he => rw [hnames, he]; exact Finset.mem_insert_self _ _
    case isFalse => rw [hnames]; exact Finset.mem_insert_of_mem (h.names n hne)
  case secrets =>
    intro x hne
    rw [hc.secret] at hne
    split at hne
    case isTrue he => rw [hsecrets, he]; exact Finset.mem_insert_self _ _
    case isFalse => rw [hsecrets]; exact Finset.mem_insert_of_mem (h.secrets x hne)
  case limit =>
    intro o
    by_cases ho : o = item.owner
    case neg =>
      have he : s'.store.members false (.owner o) = s.store.members false (.owner o) := by
        ext n
        rw [hc.members]
        simp [ho]
      rw [he]
      exact h.limit o
    case pos =>
      -- A set that outgrew the limit would have been refused.
      subst ho
      have hx := hlimit
      have hl := h.limit item.owner
      unfold KV.Typed.Store.Exceeds at hx
      simp only [peerAPIKeyLimit] at hx hl ⊢
      omega
  case next =>
    constructor
    case names => exact hnames ▸ Finset.subset_insert _ _
    case secrets => exact hsecrets ▸ Finset.subset_insert _ _
    case record =>
      intro n hmem v hv
      have hne : n ≠ item.name := fun he => hn (he ▸ hmem)
      rwa [hc.record, if_neg hne] at hv
    case secret =>
      intro x hmem v hv
      have hne : x ≠ item.apiKey := fun he => hs (he ▸ hmem)
      rwa [hc.secret, if_neg hne] at hv
    case retired =>
      intro o ho
      refine ⟨by rwa [hc.retired], fun n hmem => ?_⟩
      rcases (hc.members o n).mp hmem with hmem | ⟨rfl, rfl⟩
      case inl => exact hmem
      case inr => exact absurd hc.absent.right.right ho
    case log =>
      refine ⟨[item.owner], hlog, fun k hk => ?_⟩
      rw [hc.record]
      split
      case isFalse => rfl
      case isTrue he =>
        have hne : item ≠ k := fun h => hk (h ▸ List.mem_singleton_self _)
        rw [he, hc.absent.left]
        simp [hne]

theorem create_keeps : Inv (s.create item).snd ∧ Next s (s.create item).snd := by
  unfold State.create
  split
  case h_2 | h_3 => exact draw_keeps h _ _
  case h_1 hc =>
    have ⟨hm, hlimit⟩ := applyLimited_eq_some hc
    exact created_keeps h hn hs (createMutation_apply hm) rfl rfl rfl (hlimit _ List.mem_cons_self)

end

theorem removed_keeps (h : Inv s) (hr : Removed s.store s'.store owner names items)
    (hnames : s'.names = s.names) (hsecrets : s'.secrets = s.secrets)
    (hlog : s'.log = s.log ++ [owner])
    (hi : ∀ item ∈ items, Known s item ∧ item.owner = owner ∧ item.name ∈ names)
    (hn : ∀ n ∈ names, n ∈ items.map Key.name ∨ Gone s n) : Inv s' ∧ Next s s' := by
  -- A key that shares its name or its secret with a removed one is that one.
  have hname : ∀ {k : Key}, s.store (.record k.name) = some (.record (.key k)) →
      k.name ∈ items.map Key.name → k ∈ items := by
    intro k hk hm
    have ⟨item, hmem, he⟩ := List.mem_map.mp hm
    have hkey := (hi item hmem).left.record _ (he ▸ hk)
    simp only [KV.Typed.Content.record.injEq, Value.key.injEq] at hkey
    exact hkey ▸ hmem
  have hsecret : ∀ {n x}, s.store (.secret x) = some (.record (.name n)) →
      x ∈ items.map Key.apiKey → n ∈ items.map Key.name := by
    intro n x hx hm
    have ⟨item, hmem, he⟩ := List.mem_map.mp hm
    have hkey := (hi item hmem).left.secret _ (he ▸ hx)
    simp only [KV.Typed.Content.record.injEq, Value.name.injEq] at hkey
    exact hkey ▸ List.mem_map_of_mem hmem
  have hrecord : ∀ {n v}, s'.store (.record n) = some v →
      n ∉ items.map Key.name ∧ s.store (.record n) = some v := by
    intro n v hv
    rw [hr.record] at hv
    have ⟨he, hv⟩ := Option.ite_none_left_eq_some.mp hv
    exact ⟨he, hv⟩
  have hsub : ∀ o, s'.store.members false (.owner o) ⊆ s.store.members false (.owner o) :=
    fun o n hmem => ((hr.members o n).mp hmem).left
  refine ⟨⟨⟨?record, ?secret, ?member⟩, ?names, ?secrets, ?limit⟩, ?next⟩
  case record =>
    intro n v hv
    have ⟨hne, hv⟩ := hrecord hv
    have ⟨k, hv', hk, hx, hmem⟩ := h.whole.record n v hv
    refine ⟨k, hv', hk, ?_, (hr.members _ _).mpr ⟨hmem, fun ⟨_, hm⟩ => ?_⟩⟩
    case _ => rw [hr.secret, if_neg fun hm => hne (hsecret hx hm), hx]
    case _ =>
      rcases hn n hm with hm | hg
      case inl => exact hne hm
      case inr => exact absurd (hv.symm.trans hg.record) (by simp)
  case secret =>
    intro x v hv
    rw [hr.secret] at hv
    have ⟨he, hv⟩ := Option.ite_none_left_eq_some.mp hv
    have ⟨k, hv, hk, hrec⟩ := h.whole.secret x v hv
    refine ⟨k, hv, hk, ?_⟩
    have hne : k.name ∉ items.map Key.name :=
      fun hm => he (hk ▸ List.mem_map_of_mem (hname hrec hm))
    rw [hr.record, if_neg hne, hrec]
  case member =>
    intro o n hmem
    have ⟨hmem, hkeep⟩ := (hr.members o n).mp hmem
    have ⟨k, hk, ho, hrec⟩ := h.whole.member o n hmem
    refine ⟨k, hk, ho, ?_⟩
    have hne : n ∉ items.map Key.name := by
      subst hk
      intro hm
      have ⟨_, howner, hnames⟩ := hi k (hname hrec hm)
      exact hkeep ⟨ho ▸ howner, hnames⟩
    rw [hr.record, if_neg hne, hrec]
  case names =>
    intro n hne
    have ⟨v, hv⟩ := Option.ne_none_iff_exists'.mp hne
    exact hnames ▸ h.names n (by simp [(hrecord hv).right])
  case secrets =>
    intro x hne
    rw [hr.secret] at hne
    split at hne
    case isTrue => exact absurd rfl hne
    case isFalse => exact hsecrets ▸ h.secrets x hne
  case limit => exact fun o => (Finset.card_le_card (hsub o)).trans (h.limit o)
  case next =>
    constructor
    case names => exact hnames.ge
    case secrets => exact hsecrets.ge
    case record => exact fun n _ v hv => (hrecord hv).right
    case secret =>
      intro x _ v hv
      rw [hr.secret] at hv
      have ⟨_, hv⟩ := Option.ite_none_left_eq_some.mp hv
      exact hv
    case retired => exact fun o ho => ⟨by rwa [hr.retired], hsub o⟩
    case log =>
      refine ⟨[owner], hlog, fun k hk => ⟨fun hv => (hrecord hv).right, fun hv => ?_⟩⟩
      have hne : k.name ∉ items.map Key.name := fun hm =>
        hk ((hi k (hname hv hm)).right.left ▸ List.mem_singleton_self _)
      rw [hr.record, if_neg hne, hv]

end Keeps

end GizClaw.APIKey

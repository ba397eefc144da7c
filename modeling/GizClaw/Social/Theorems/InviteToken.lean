import GizClaw.Social.InviteToken
import GizClaw.Social.Sample

-- The index of tokens has exactly the tokens of the invitations.

namespace GizClaw.Social.InviteToken

open Interleaving
open PendingDeletion (Text ascii)
open KV.Timed (Store Mutation)

variable {P : Platform} {root key key' : Key} {token token' : Text} {s s' : State}
  {σ σ' : Store Key Value}
variable {now t : KV.Time} {m : Mutation Key Value}

-- The entries of the index are those that the invitations ask for.
structure Exact (P : Platform) (root : Key) (live : Key → Option Value) : Prop where
  index : ∀ token v, live (inviteTokenIndexKey P root token) = some v ↔
    ∃ key i, v = .locator key ∧ Domain root key ∧ live key = some (.invitation i) ∧ i.token = token
  nonempty : ∀ key i, Domain root key → live key = some (.invitation i) → i.token ≠ []

-- It is so now, and stays so when records expire.
def Inv (P : Platform) (root : Key) (s : State) : Prop :=
  ∀ t, s.now ≤ t → Exact P root (s.store.live t)

section Keys

theorem index_inj : inviteTokenIndexKey P root token = inviteTokenIndexKey P root token' ↔
    token = token' := by
  simp [inviteTokenIndexKey, P.digest_inj.eq_iff]

theorem Domain.ne_index (h : Domain root key) : key ≠ inviteTokenIndexKey P root token := by
  obtain ⟨segment, rfl⟩ := h
  intro he
  have hlength := congrArg List.length he
  simp [inviteTokenIndexKey] at hlength

theorem Domain.dropLast (h : Domain root key) : key.dropLast = root := by
  obtain ⟨segment, rfl⟩ := h
  exact List.dropLast_concat

end Keys

section Mutations

-- What a call on a key may do.
inductive Attempt (P : Platform) (key : Key) : Mutation Key Value → Prop where
  | write {value : Invitation} {old indexed : Option Value} {previous : Text}
    (htoken : value.token ≠ [])
    (hold : previousToken old = .ok previous) (hindexed : ∀ v ∈ indexed, v = .locator key) :
    Attempt P key (writeMutation P key value old indexed previous)
  | delete {data : Value} {token : Text} (hdata : decodeToken data = .ok token) :
    Attempt P key (deleteMutation P key data token)

theorem decodeToken_eq (h : decodeToken data = .ok token) :
    ∃ i, data = .invitation i ∧ i.token = token := by
  unfold decodeToken at h
  split at h
  case h_1 i =>
    cases h
    exact ⟨i, rfl, rfl⟩
  case h_2 => nomatch h

theorem previousToken_eq (h : previousToken old = .ok token) (hne : token ≠ []) :
    ∃ i, old = some (.invitation i) ∧ i.token = token := by
  unfold previousToken at h
  split at h
  case h_1 =>
    have ⟨i, hi, ht⟩ := decodeToken_eq h
    exact ⟨i, congrArg some hi, ht⟩
  case h_2 =>
    cases h
    exact absurd rfl hne

variable {value : Invitation} {old indexed : Option Value} {previous : Text} {data : Value}

theorem live_write (hd : Domain root key) (t : KV.Time) (k : Key) :
    Store.live ((σ.putAll (writeMutation P key value old indexed previous).entries).deleteAll
      (writeMutation P key value old indexed previous).deleteKeys) t k =
    if (previous ≠ [] ∧ previous ≠ value.token) ∧ k = inviteTokenIndexKey P root previous then none
    else if k = inviteTokenIndexKey P root value.token then
      if KV.Timed.expired t value.expiresAt then none else some (.locator key)
    else if k = key then
      if KV.Timed.expired t value.expiresAt then none else some (.invitation value)
    else σ.live t k := by
  simp only [writeMutation, hd.dropLast, Store.putAll, List.foldl_cons, List.foldl_nil]
  by_cases hp : previous ≠ [] ∧ previous ≠ value.token
  case pos =>
    simp only [if_pos hp, Store.deleteAll, List.foldl_cons, List.foldl_nil, Store.live_put,
      Store.live_erase,
      and_iff_right hp]
  case neg =>
    simp only [Store.deleteAll, List.foldl_nil, Store.live_put, hp, false_and, ↓reduceIte]

theorem write_conditions (hd : Domain root key)
    (h : ∀ c ∈ (writeMutation P key value old indexed previous).conditions,
    σ.live now c.key = c.expected) :
    σ.live now key = old ∧ σ.live now (inviteTokenIndexKey P root value.token) = indexed := by
  simpa only [writeMutation, hd.dropLast, List.forall_mem_cons, List.not_mem_nil,
    false_implies, implies_true,
    and_true] using h

theorem live_delete (hd : Domain root key) (t : KV.Time) (k : Key) :
    Store.live ((σ.putAll (deleteMutation P key data token).entries).deleteAll
      (deleteMutation P key data token).deleteKeys) t k =
    if k = key ∨ token ≠ [] ∧ k = inviteTokenIndexKey P root token then none else σ.live t k := by
  simp only [deleteMutation, hd.dropLast, Store.putAll, List.foldl_nil]
  by_cases ht : token ≠ []
  case pos =>
    simp only [if_pos ht, Store.deleteAll, List.foldl_cons, List.foldl_nil, Store.live_erase,
      and_iff_right ht]
    by_cases hk : k = key <;> simp [hk]
  case neg =>
    simp only [Store.deleteAll, ht, false_and, or_false, ↓reduceIte, List.foldl_cons,
      List.foldl_nil,
      Store.live_erase]

-- The invitations of other keys stay as they are.
theorem Attempt.other (h : Attempt P key m) (hd : Domain root key)
    (hm : σ.applyMutation now m = .ok (some σ')) (hd' : Domain root key') (hne : key' ≠ key) :
    σ'.live t key' = σ.live t key' := by
  obtain ⟨_, rfl⟩ := Store.applyMutation_eq_some hm
  cases h
  case write => rw [live_write hd, if_neg (hd'.ne_index ·.right), if_neg hd'.ne_index, if_neg hne]
  case delete => rw [live_delete hd, if_neg (·.elim hne (hd'.ne_index ·.right))]

-- The invitation of one key is replaced. `live` is what there is now, and `live₁` what there would
-- be later.
theorem Exact.replace {live live₁ live' : Key → Option Value} (h₁ : Exact P root live₁)
    (hle : ∀ k v, live₁ k = some v → live k = some v) (hd : Domain root key)
    (hother : ∀ k, Domain root k → k ≠ key → live' k = live₁ k)
    (hnew : ∀ i, live' key = some (.invitation i) → i.token ≠ [] ∧
      live' (inviteTokenIndexKey P root i.token) = some (.locator key) ∧
      ∀ v, live (inviteTokenIndexKey P root i.token) = some v → v = .locator key)
    (hrest : ∀ token, (∀ i, live' key = some (.invitation i) → i.token ≠ token) →
      live' (inviteTokenIndexKey P root token) =
        if live (inviteTokenIndexKey P root token) = some (.locator key) then none
        else live₁ (inviteTokenIndexKey P root token)) : Exact P root live' where
  index := by
    intro token v
    -- Where the invitation of another key has the token, the index leads there.
    have hindex {k : Key} {i : Invitation} (hk : Domain root k) (hne : k ≠ key)
        (hi : live' k = some (.invitation i)) (ht : i.token = token) :
        live₁ (inviteTokenIndexKey P root token) = some (.locator k) := by
      rw [hother k hk hne] at hi
      exact (h₁.index _ _).mpr ⟨k, i, rfl, hk, hi, ht⟩
    by_cases hex : ∃ i, live' key = some (.invitation i) ∧ i.token = token
    case pos =>
      obtain ⟨i, hi, rfl⟩ := hex
      have ⟨_, hlocator, hfree⟩ := hnew i hi
      rw [hlocator]
      constructor
      · rintro ⟨⟩
        exact ⟨key, i, rfl, hd, hi, rfl⟩
      · rintro ⟨k, i', rfl, hk, hi', ht⟩
        by_cases hne : k = key
        case pos => rw [hne]
        case neg => exact congrArg some (hfree _ (hle _ _ (hindex hk hne hi' ht))).symm
    case neg =>
      rw [hrest token fun i hi ht => hex ⟨i, hi, ht⟩]
      constructor
      · intro hv
        split at hv
        case isTrue => nomatch hv
        case isFalse hnot =>
          have ⟨k, i, hvk, hk, hi, ht⟩ := (h₁.index _ _).mp hv
          have hne : k ≠ key := by
            rintro rfl
            exact hnot (hle _ _ (hvk ▸ hv))
          exact ⟨k, i, hvk, hk, (hother k hk hne).trans hi, ht⟩
      · rintro ⟨k, i, rfl, hk, hi, ht⟩
        have hne : k ≠ key := by
          rintro rfl
          exact hex ⟨i, hi, ht⟩
        have hlocator := hindex hk hne hi ht
        rw [if_neg, hlocator]
        rw [hle _ _ hlocator]
        simpa using hne
  nonempty := by
    intro k i hk hi
    by_cases hne : k = key
    case pos => exact (hnew i (hne ▸ hi)).left
    case neg =>
      rw [hother k hk hne] at hi
      exact h₁.nonempty k i hk hi

-- An entry of the index leads to the key exactly where the invitation of the key has the token.
theorem Exact.index_key (h : Exact P root live) (hd : Domain root key) :
    live (inviteTokenIndexKey P root token) = some (.locator key) ↔
      ∃ i, live key = some (.invitation i) ∧ i.token = token := by
  rw [h.index]
  constructor
  · rintro ⟨k, i, hk, _, hi, ht⟩
    cases hk
    exact ⟨i, hi, ht⟩
  · rintro ⟨i, hi, ht⟩
    exact ⟨key, i, rfl, hd, hi, ht⟩

theorem Attempt.exact (h : Attempt P key m) (hd : Domain root key)
    (hm : σ.applyMutation now m = .ok (some σ')) (hnow : Exact P root (σ.live now)) (hle : now ≤ t)
    (ht : Exact P root (σ.live t)) : Exact P root (σ'.live t) := by
  have hlater (k : Key) (v : Value) (hk : σ.live t k = some v) : σ.live now k = some v :=
    Store.live_of_le hk hle
  have hother (k : Key) (hk : Domain root k) (hne : k ≠ key) : σ'.live t k = σ.live t k :=
    h.other hd hm hk hne
  refine ht.replace hlater hd hother ?_ ?_ <;>
    obtain ⟨hconditions, rfl⟩ := Store.applyMutation_eq_some hm <;> cases h
  case refine_1.write htoken hold hindexed =>
    have ⟨_, hindex⟩ := write_conditions hd hconditions
    intro i hi
    rw [live_write hd, if_neg (hd.ne_index ·.right), if_neg hd.ne_index, if_pos rfl] at hi
    split at hi
    case isTrue => nomatch hi
    case isFalse hex =>
      cases hi
      refine ⟨htoken, ?_, fun v hv => hindexed v (hindex ▸ hv)⟩
      rw [live_write hd, if_neg, if_pos rfl, if_neg hex]
      exact fun hp => hp.left.right (index_inj.mp hp.right).symm
  case refine_1.delete =>
    intro i hi
    rw [live_delete hd, if_pos (.inl rfl)] at hi
    nomatch hi
  case refine_2.write value old indexed previous htoken hold hindexed =>
    have ⟨hkey, hindex⟩ := write_conditions hd hconditions
    intro token hfree
    by_cases hn : token = value.token
    case pos =>
      -- The new invitation has expired by then, and so has everything else under its token.
      subst hn
      have hexpired : KV.Timed.expired t value.expiresAt = true := by
        by_contra hfresh
        refine hfree value ?_ rfl
        rw [live_write hd, if_neg (hd.ne_index ·.right), if_neg hd.ne_index, if_pos rfl,
          if_neg hfresh]
      rw [live_write hd, if_neg (fun hp => hp.left.right (index_inj.mp hp.right).symm), if_pos rfl,
        if_pos hexpired]
      split
      case isTrue => rfl
      case isFalse hnot =>
        refine (Option.eq_none_iff_forall_ne_some.mpr fun v hv => ?_).symm
        have hv := hlater _ _ hv
        exact hnot (hv.trans (congrArg some (hindexed v (hindex ▸ hv))))
    case neg =>
      have hprevious : (previous ≠ [] ∧ previous ≠ value.token) ∧
          inviteTokenIndexKey P root token = inviteTokenIndexKey P root previous ↔
          σ.live now (inviteTokenIndexKey P root token) = some (.locator key) := by
        rw [hnow.index_key hd, index_inj]
        constructor
        · rintro ⟨⟨hne, _⟩, rfl⟩
          have ⟨i, hi, ht⟩ := previousToken_eq hold hne
          exact ⟨i, hkey.trans hi, ht⟩
        · rintro ⟨i, hi, rfl⟩
          rw [hkey.symm.trans hi] at hold
          cases hold
          exact ⟨⟨hnow.nonempty key i hd hi, hn⟩, rfl⟩
      rw [live_write hd, if_neg (mt index_inj.mp hn), if_neg (Ne.symm hd.ne_index)]
      simp only [hprevious]
  case refine_2.delete data token hdata =>
    have hkey : σ.live now key = some data :=
        hconditions ⟨key, some data⟩ (by simp [deleteMutation])
    intro token' _
    obtain ⟨i, rfl, rfl⟩ := decodeToken_eq hdata
    have hown : inviteTokenIndexKey P root token' = key ∨ i.token ≠ [] ∧
        inviteTokenIndexKey P root token' = inviteTokenIndexKey P root i.token ↔
        σ.live now (inviteTokenIndexKey P root token') = some (.locator key) := by
      rw [hnow.index_key hd, index_inj, hkey]
      constructor
      · rintro (hk | ⟨_, rfl⟩)
        · exact absurd hk (Ne.symm hd.ne_index)
        · exact ⟨i, rfl, rfl⟩
      · rintro ⟨i', hi', rfl⟩
        cases hi'
        exact .inr ⟨hnow.nonempty key i hd hkey, rfl⟩
    rw [live_delete hd]
    simp only [hown]

end Mutations

section Calls

-- The action reads, or it changes what belongs to the key.
def Act.On (P : Platform) (key : Option Key) : Act → Prop
  | .apply m => ∃ k, key = some k ∧ Attempt P k m
  | .get _ => True
  | .wait _ => key = none

theorem load_on {key : Option Key} : AllOk (Act.On P key) (load k) := by
  refine ⟨trivial, fun r => ?_⟩
  rcases r with err | v
  case error => cases err <;> trivial
  case ok => trivial

theorem apply_on (h : Attempt P key m) : AllOk (Act.On P (some key)) (apply m) := by
  refine ⟨⟨key, rfl, h⟩, fun r => ?_⟩
  cases r <;> trivial

theorem writeLoop_on {value : Invitation} (htoken : value.token ≠ []) (tries : Nat) :
    AllOk (Act.On P (some key)) (writeLoop P key value tries) := by
  induction tries
  case zero => exact .throw
  case succ hi =>
    refine .bind load_on fun old => ?_
    refine .bindLift fun previous hold => ?_
    refine .bind load_on fun indexed => ?_
    refine .guard fun hany => ?_
    have hindexed : ∀ v ∈ indexed, v = .locator key := by
      rintro v ⟨⟩
      simpa using hany
    refine .bind (apply_on (.write htoken hold hindexed)) fun b => ?_
    split
    case isTrue => exact .pure
    case isFalse => exact hi

theorem deleteLoop_on (tries : Nat) : AllOk (Act.On P (some key)) (deleteLoop P key tries) := by
  induction tries
  case zero => exact .throw
  case succ hi =>
    refine .bind load_on fun data => ?_
    split
    case h_1 => exact .pure
    case h_2 =>
      refine .bindLift fun token hdata => ?_
      refine .bind (apply_on (.delete hdata)) fun b => ?_
      split
      case isTrue => exact .pure
      case isFalse => exact hi

theorem readInviteToken_on {key : Option Key} :
    AllOk (Act.On P key) (readInviteToken P root token) := by
  refine .bind load_on fun data => ?_
  split
  case h_1 => exact .throw
  case h_2 data =>
    refine .bindLift fun k _ => ?_
    refine .guard fun _ => ?_
    refine .guard fun _ => ?_
    refine .bind load_on fun data => ?_
    split
    case h_1 | h_2 => exact .throw
    case h_3 =>
      exact .guard fun _ => .pure

-- A call touches nothing but what belongs to its key.
theorem call_on (op : Op) : (op.call P root).run.All (Act.On P op.key) := by
  cases op
  case write key value =>
    refine AllOk.bind (x := writeInviteToken P key value) ?_ fun _ => .pure
    refine .guard fun hval => ?_
    refine writeLoop_on ?_ 16
    rintro htoken
    refine hval (.inl ?_)
    rw [htoken]
    exact P.trimSpace_eq [] (by simp)
  case delete key =>
    exact AllOk.bind (x := deleteInviteToken P key) (deleteLoop_on 16) fun _ => .pure
  case read => exact AllOk.map readInviteToken_on
  case wait => exact ⟨rfl, fun _ => trivial⟩

end Calls

section Steps

theorem get_same (h : Does (.get k) s r s') : s' = s := by
  cases h <;> rfl

theorem apply_cases (h : Does (.apply m) s r s') :
    s' = s ∨ ∃ σ, s.store.applyMutation s.now m = .ok (some σ) ∧ s' = { s with store := σ } := by
  have happly : (s.apply m).snd = s ∨ ∃ σ, s.store.applyMutation s.now m = .ok (some σ) ∧
      (s.apply m).snd = { s with store := σ } := by
    unfold State.apply
    split
    case h_1 σ hm => exact .inr ⟨σ, hm, rfl⟩
    case h_2 | h_3 => exact .inl rfl
  cases h
  case done | replyLost => exact happly
  case failed => exact .inl rfl

variable {a : Act} {r : Reply a} {op : Ops root}

theorem inv_init : Inv P root (.init now) := by
  intro t _
  refine ⟨fun token v => ⟨fun h => ?_, fun ⟨key, i, _, _, h, _⟩ => ?_⟩, fun key i _ h =>
    ?_⟩ <;> nomatch h

theorem Inv.step (h : Inv P root s) (ha : a.On P op.val.key) (hs : Does a s r s') :
    Inv P root s' := by
  cases a
  case get => exact get_same hs ▸ h
  case apply =>
    obtain ⟨key, hkey, hm⟩ := ha
    rcases apply_cases hs with rfl | ⟨σ, hσ, rfl⟩
    · exact h
    · exact fun t ht => hm.exact (op.property key hkey) hσ (h s.now le_rfl) ht (h t ht)
  case wait duration =>
    obtain rfl : s' = { s with now := s.now + duration } := hs
    have hle : s.now ≤ s.now + duration := Int.le_add_of_nonneg_right (Int.natCast_nonneg duration)
    exact fun t ht => h t (hle.trans ht)

-- The entries of other keys are left alone.
theorem Inv.keeps_other (h : Inv P root s) (ha : a.On P op.val.key) (hs : Does a s r s')
    (hkey : op.val.key = some key) (hne : key' ≠ key)
    (hentry : s.live (inviteTokenIndexKey P root token) = some (.locator key')) :
    s'.live (inviteTokenIndexKey P root token) = some (.locator key') := by
  have hexact := (h.step ha hs) s'.now le_rfl
  cases a
  case get => exact get_same hs ▸ hentry
  case wait => exact nomatch hkey.symm.trans ha
  case apply =>
    obtain ⟨k, hk, hm⟩ := ha
    cases hkey.symm.trans hk
    rcases apply_cases hs with rfl | ⟨σ, hσ, rfl⟩
    · exact hentry
    · have ⟨k', i, hk', hd', hi, ht⟩ := ((h s.now le_rfl).index _ _).mp hentry
      cases hk'
      refine (hexact.index _ _).mpr ⟨key', i, rfl, hd', ?_, ht⟩
      exact (hm.other (op.property key hkey) hσ hd' hne).trans hi

end Steps

section Reads

-- The record has named the token.
def Names (root : Key) (token : Text) (s : State) (i : Invitation) : Prop :=
  i.token = token ∧ ∃ key, Domain root key ∧ s.live key = some (.invitation i)

abbrev Keeps (P : Platform) (root : Key) {α : Type} (Q : State → α → Prop) (s : State)
    (x : Call α) : Prop :=
  SafeOk Does (Inv P root) (fun _ _ => True) Q s x

theorem keeps_load : Keeps P root (fun s v => ∀ w ∈ v, s.live k = some w) s (load k) := by
  refine .act fun s₁ _ hinv r s₂ hd => ?_
  cases hd
  case done =>
    refine ⟨hinv, trivial, ?_⟩
    unfold Store.get
    cases hlive : Store.live s₁.store s₁.now k
    case none => exact .pure (by simp)
    case some =>
      refine .pure ?_
      rintro w ⟨⟩
      exact hlive
  case failed | replyLost => exact ⟨hinv, trivial, SafeOk.throw⟩

theorem keeps_readInviteToken :
    Keeps P root (Names root token) s (readInviteToken P root token) := by
  refine .bind keeps_load fun s data _ => ?_
  split
  case h_1 => exact .throw
  case h_2 =>
    refine .bindLift fun key _ => ?_
    refine .guard fun hlength => ?_
    refine .guard fun htake => ?_
    have hdomain : Domain root key := by
      have hkey := List.take_append_drop root.length key
      have hdrop : (key.drop root.length).length = 1 := by
        rw [List.length_drop, not_not.mp hlength]
        omega
      have ⟨segment, hsegment⟩ := List.length_eq_one_iff.mp hdrop
      exact ⟨segment, by rw [← hkey, hsegment, not_not.mp htake]⟩
    refine .bind keeps_load fun s data hdata => ?_
    split
    case h_1 | h_2 => exact .throw
    case h_3 =>
      exact .guard fun htoken => .pure ⟨not_not.mp htoken, key, hdomain, hdata _ rfl⟩

end Reads

section Runs

theorem safe_program (op : Ops root) : Safe Does (Inv P root) Any Any s
    (program P root op) :=
  (call_on op.val).safe fun _ _ _ _ ha hinv hs => ⟨hinv.step ha hs, trivial⟩

def readOp (root : Key) (token : Text) : Ops root :=
  ⟨.read token, fun _ h => nomatch h⟩

-- The index has exactly the tokens of the invitations. Thus a token leads to one resource only,
-- calls on a resource leave the entries of others alone, and what is read by a token has named it.
theorem invite_index_exact {c : Config} (h : Reachable P root now c) :
    (∀ token v, c.shared.live (inviteTokenIndexKey P root token) = some v ↔
      ∃ key i, v = .locator key ∧ Domain root key ∧ c.shared.live key = some (.invitation i) ∧
        i.token = token) ∧
    (∀ key key' i i', Domain root key → Domain root key' → c.shared.live key =
    some (.invitation i) →
      c.shared.live key' = some (.invitation i') → i.token = i'.token → key = key') ∧
    (∀ (op : Ops root) j a next r s' key key' token, (program P root op).Rest (.act a next) →
      c.programs j = some (.act a next) → Does a c.shared r s' → op.val.key =
        some key → key' ≠ key →
      c.shared.live (inviteTokenIndexKey P root token) = some (.locator key') →
      s'.live (inviteTokenIndexKey P root token) = some (.locator key')) ∧
    ∀ j token c' i, Since Does (program P root) j (readOp root token) c c' →
      c'.result j = some (.ok (some i)) →
      ∃ c₁, Relation.ReflTransGen (Step Does (program P root)) c c₁ ∧
        Relation.ReflTransGen (Step Does (program P root)) c₁ c' ∧
          Names root token c₁.shared i := by
  have hsound : c.Sound Does (Inv P root) fun _ _ => True :=
    Interleaving.Reachable.sound (fun _ => trivial) (fun _ _ => trivial)
      (fun op _ _ => safe_program op)
      inv_init h
  have hexact : Exact P root c.shared.live := hsound.inv c.shared.now le_rfl
  refine ⟨hexact.index, fun key key' i i' hd hd' hi hi' ht => ?_, ?_, ?_⟩
  · have hkey := (hexact.index_key hd).mpr ⟨i, hi, rfl⟩
    have hkey' := (hexact.index_key hd').mpr ⟨i', hi', ht.symm⟩
    cases hkey.symm.trans hkey'
    rfl
  · intro op j a next r s' key key' token hrest _ hs hkey hne hentry
    exact hsound.inv.keeps_other ((call_on op.val).rest hrest).left hs hkey hne hentry
  · intro j token c' i hsince hresult
    have hmoment := hsince.moment (fun _ => trivial) (fun _ _ => trivial)
        (fun op _ _ => safe_program op) hsound
      (P := fun s r => ∀ o, r = .ok o → ∀ i ∈ o, Names root token s i)
      (fun s _ => SafeOk.map keeps_readInviteToken fun s i hi => by rintro _ ⟨⟩; exact hi)
      (Interleaving.Config.result_eq_some.mp hresult)
    have ⟨c₁, hbefore, hafter, hnames⟩ := hmoment
    exact ⟨c₁, hbefore, hafter, hnames _ rfl i rfl⟩

end Runs

section Samples

def Platform.sample : Platform where
  toPlatform := Social.Sample.platform
  digest := id
  digest_inj := Function.injective_id

def perform (_ : Unit) : (a : Act) → State → Option (Reply a × State)
  | .get k, s => some (s.store.get s.now k, s)
  | .apply m, s => some (s.apply m)
  | .wait duration, s => some ((), { s with now := s.now + duration })

theorem does_of_perform (ch : Unit) (a : Act) (s : State) (r : Reply a) (s' : State)
    (h : perform ch a s = some (r, s')) : Does a s r s' := by
  cases a
  case get =>
    cases h
    exact .done
  case apply =>
    obtain ⟨rfl, rfl⟩ := Prod.mk.injEq .. ▸ Option.some.inj h
    exact .done
  case wait =>
    cases h
    rfl

def rootSample : Key :=
  [ascii "friend-invite-tokens"]

def keySample (segment : Byte) : Key :=
  rootSample ++ [[segment]]

-- One peer changes its token, and another one takes the old token over.
def takeOver : List (Turn (Ops rootSample) Unit) :=
  let write (segment token : Byte) (expiresAt : KV.Time) : Ops rootSample :=
    ⟨.write (keySample segment) ⟨[token], some expiresAt, []⟩, by rintro _ ⟨⟩; exact ⟨_, rfl⟩⟩
  let read : Ops rootSample := readOp rootSample [1]
  [.call 0 (write 97 1 10), .act 0 (), .act 0 (), .act 0 (),
    .call 0 (write 97 2 10), .act 0 (), .act 0 (), .act 0 (),
    .call 1 (write 98 1 20), .act 1 (), .act 1 (), .act 1 (),
    .call 2 read, .act 2 (), .act 2 ()]

theorem invite_index_exact_takeOver : ∃ c, Reachable .sample rootSample 0 c ∧
    c.shared.live (keySample 98) = some (.invitation ⟨[1], some 20, []⟩) ∧
    ∀ v, c.shared.live (inviteTokenIndexKey .sample rootSample [1]) = some v ↔
      ∃ key i, v = .locator key ∧ Domain rootSample key ∧ c.shared.live key = some (.invitation i) ∧
        i.token = [1] := by
  have hrun : ∃ c, Reachable .sample rootSample 0 c ∧
      c.shared.live (keySample 98) = some (.invitation ⟨[1], some 20, []⟩) :=
    Interleaving.Reachable.exists_run (t := takeOver) does_of_perform (by decide +kernel)
  have ⟨c, hc, hlive⟩ := hrun
  exact ⟨c, hc, hlive, fun v => (invite_index_exact hc).left [1] v⟩

end Samples

end GizClaw.Social.InviteToken

import GizClaw.KV.Redis
import GizClaw.KV.Theorems.Memory
import GizClaw.KV.Theorems.Logical

-- The Redis script against the in-memory store. The script checks all commands on the state it
-- finds, then projects the sizes of the bounded collections, and only then writes.

namespace GizClaw.KV.Redis

open Function (update update_of_ne)
open List (map_cons mem_cons mem_map mem_append cons_append flatMap_cons)

variable {o : Option Options} {now : Time} {db : Keyspace} {e : EncKey} {g : Group o}

attribute [local simp] Logical.Within Obj.expired Op.maximum

@[local simp]
def Obj.toVal : Obj → Val
  | string v ms => .record v (ms.map (· * 1000000))
  | set s => .members false s
  | zset s => .members true s

def logical (db : Keyspace) : Logical :=
  fun e => (db e).map Obj.toVal

theorem logical_update (db : Keyspace) (e : EncKey) (x : Option Obj) :
    logical (update db e x) = update (logical db) e (x.map Obj.toVal) := by
  ext1 e'
  by_cases h : e' = e
  case pos => subst h; simp [logical]
  case neg => simp [logical, h]

theorem logical_collection (db : Keyspace) (e : EncKey) (ordered : Bool) (s : Finset Bytes) :
    logical (update db e (collection ordered s)) = (logical db).store e ordered s := by
  rw [logical_update, Logical.store, collection]
  by_cases hs : s = ∅ <;> cases ordered <;> simp [hs]

-- A millisecond has come exactly when the nanosecond that it starts with has.
theorem live_eq (db : Keyspace) (e : EncKey) :
    (logical db).live now e = (find (now / 1000000) db e).map Obj.toVal := by
  simp only [Logical.live, logical, find]
  cases db e
  case none => rfl
  case some x =>
    have hx : x.toVal.expired now = x.expired (now / 1000000) := by
      cases x
      case string ms =>
        cases ms
        case none => rfl
        case some => simp [Val.expired, Int.le_ediv_iff_mul_le]
      case set | zset => rfl
    rw [Option.map_some, Option.filter_some, Option.filter_some, hx]
    split <;> rfl

section CheckPass

theorem checkPass_append (now : Int) (cs ds : List Command) :
    checkPass now db (cs ++ ds) = (do
      match ← checkPass now db cs with
      | some n => return some n
      | none => checkPass now db ds) := by
  induction cs
  case nil => rfl
  case cons c cs hi =>
    simp only [cons_append, checkPass, hi]
    cases checkCommand now db c
    case error => rfl
    case ok r => cases r <;> rfl

theorem checkCommand_condition (c : Condition o) :
    checkCommand (now / 1000000) db (conditionCommand c) =
    match c.expected, (logical db).live now c.key.encode with
    | none, none => .ok none
    | none, some _ => .ok (some 0)
    | some _, none => .ok (some 0)
    | some _, some (.members ..) => .error .wrongType
    | some x, some (.record v _) => .ok (if v = x then none else some 0) := by
  rw [live_eq]
  cases hf : find (now / 1000000) db c.key.encode <;> cases hc : c.expected <;>
    simp only [checkCommand, conditionCommand, type, get, hc, hf]
  case none.none | none.some => rfl
  case some.none v => cases v <;> rfl
  case some.some v x =>
    cases v
    case string y ms => by_cases h : y = x <;> simp [h]
    case set | zset => rfl

theorem checkPass_conditions (cs : List (Condition o)) :
    checkPass (now / 1000000) db (cs.map conditionCommand) =
    match (logical db).checkConditions now cs with
    | .error _ => .error .wrongType
    | .ok false => .ok (some 0)
    | .ok true => .ok none := by
  induction cs
  case nil => rfl
  case cons c cs hi =>
    simp only [map_cons, checkPass, hi, checkCommand_condition, Logical.checkConditions]
    cases c.expected <;> cases (logical db).live now c.key.encode <;> try rfl
    case some.some x v =>
      cases v
      case members => rfl
      case record y d => by_cases h : y = x <;> simp [h]; rfl

theorem checkConditions_error {σ : Logical}
    (h : σ.checkConditions now cs = .error err) : err = .wrongType := by
  induction cs
  case nil => contradiction
  case cons hi =>
    unfold Logical.checkConditions at h
    split at h
    case h_1 => exact hi h
    case h_2 | h_3 => contradiction
    case h_4 => exact (Except.error.inj h).symm
    case h_5 =>
      split at h
      case isTrue => exact hi h
      case isFalse => contradiction

-- The deadlines that Redis can represent, as a positive number of milliseconds in an `int64`.
def WholeMillis (d : Time) : Prop :=
  ∃ ms : Int, 0 < ms ∧ ms < 2 ^ 63 ∧ d = ms * 1000000

theorem unixMilli_eq {ms : Int} (h₀ : 0 < ms) (h₁ : ms < 2 ^ 63) :
    unixMilli (ms * 1000000) = ms := by
  rw [unixMilli, int64, Int.mul_ediv_cancel _ (by decide)]
  exact Int.bmod_eq_of_le (by omega) (by omega)

theorem checkPass_entries {entries : List (Entry o)}
    (h : ∀ entry ∈ entries, ∀ d ∈ entry.deadline, now < d ∧ WholeMillis d) :
    checkPass (now / 1000000) db (entries.map entryCommand) = .ok none := by
  induction entries
  case nil => rfl
  case cons entry entries hi =>
    simp only [mem_cons, forall_eq_or_imp] at h
    simp only [map_cons, checkPass, hi h.right, checkCommand, entryCommand]
    cases hd : entry.deadline
    case none => rfl
    case some d =>
      obtain ⟨hn, ms, h₀, h₁, rfl⟩ := h.left d hd
      have hle : ¬ms ≤ now / 1000000 := by
        rw [Int.le_ediv_iff_mul_le (by decide)]
        exact not_le_of_gt hn
      simp [unixMilli_eq h₀ h₁, hle]

theorem checkPass_deletes (now : Int) (keys : List (Key o)) :
    checkPass now db (keys.map deleteCommand) = .ok none := by
  induction keys
  case nil => rfl
  case cons hi => exact hi

theorem checkCommand_group (g : Group o) :
    checkCommand (now / 1000000) db (groupCommand g) =
    if (logical db).Mismatch now g then .error .wrongType else .ok none := by
  have hm : (logical db).Mismatch now g ↔
    ((logical db).live now g.key.encode).any (·.kind ≠ some g.phase.ordered) := .rfl
  rw [live_eq] at hm
  cases hf : find (now / 1000000) db g.key.encode <;>
    simp only [hm, checkCommand, groupCommand, type, hf]
  case none => cases g.phase <;> rfl
  case some x => cases x <;> cases g.phase <;> rfl

theorem checkPass_groups (gs : List (Group o)) :
    checkPass (now / 1000000) db (gs.map groupCommand) =
    if ∀ g ∈ gs, ¬(logical db).Mismatch now g then .ok none else .error .wrongType := by
  induction gs
  case nil => rfl
  case cons g gs hi =>
    simp only [map_cons, checkPass, checkCommand_group, hi]
    by_cases hm : (logical db).Mismatch now g <;> simp [hm]; rfl

end CheckPass

section ProjectPass

-- What the projection knows about a key whose members were `initial` and now would be `s`.
def Projected.Knows (st : Projected) (initial s : Finset Bytes) : Prop :=
  st.count = s.card ∧
  ∀ m, match st.members m with
    | some b => b = true ↔ m ∈ s
    | none => m ∈ s ↔ m ∈ initial

def Follows (st : Option Projected) (initial s : Finset Bytes) : Prop :=
  match st with
  | none => s = initial
  | some st => st.Knows initial s

variable {present : Bytes → Except Fault Bool} {initial s : Finset Bytes}

section

variable (hp : ∀ m, present m = .ok (decide (m ∈ initial)))
include hp

theorem projectMember_spec (m : Bytes) (h : st.Knows initial s) :
    ∃ st', projectMember present m st = .ok st' ∧ st'.Knows initial (insert m s) := by
  have hk : ∃ b, st.known present m = .ok b ∧ (b = true ↔ m ∈ s) := by
    have hm := h.right m
    unfold Projected.known
    cases hs : st.members m <;> simp only [hs] at hm
    case none => exact ⟨_, hp m, by simpa using hm.symm⟩
    case some b => exact ⟨b, rfl, hm⟩
  have ⟨b, hb, hm⟩ := hk
  refine ⟨_, by rw [projectMember, hb]; rfl, ?count, ?members⟩
  case count =>
    by_cases hx : m ∈ s
    case pos => simp [hm.mpr hx, Finset.insert_eq_of_mem hx, h.left]
    case neg => simp [mt hm.mp hx, Finset.card_insert_of_notMem hx, h.left]
  case members =>
    intro x
    by_cases hx : x = m
    case pos => simp [hx]
    case neg => simpa [update_of_ne hx, hx] using h.right x

theorem projectMembers_spec (ms : List Bytes) (h : st.Knows initial s) :
    ∃ st', projectMembers present ms st = .ok st' ∧
      st'.Knows initial (ms.foldl (fun s m => insert m s) s) := by
  induction ms generalizing st s
  case nil => exact ⟨st, rfl, h⟩
  case cons m ms hi =>
    have ⟨st₁, h₁, hk⟩ := projectMember_spec hp m h
    have ⟨st₂, h₂, hk⟩ := hi hk
    exact ⟨st₂, by rw [projectMembers, h₁]; exact h₂, hk⟩

theorem projectAdd_spec (maximum : Int) (ms : List Bytes) (h : Follows st initial s) :
    let s' := ms.foldl (fun s m => insert m s) s
    ∃ r, projectAdd (.ok initial.card) present maximum ms st = .ok r ∧
      (0 < maximum ∧ maximum < s'.card ∧ s.card < s'.card → r = none) ∧
      (¬(0 < maximum ∧ maximum < s'.card ∧ s.card < s'.card) →
        ∃ st', r = some st' ∧ st'.Knows initial s') := by
  intro s'
  have hs : ∃ st₁, Projected.start (.ok initial.card) st = .ok st₁ ∧ st₁.Knows initial s := by
    cases st
    case none => exact ⟨_, rfl, by rw [(h : s = initial)]; exact ⟨rfl, fun _ => .rfl⟩⟩
    case some st => exact ⟨st, rfl, h⟩
  have ⟨st₁, h₁, hk₁⟩ := hs
  have ⟨st₂, h₂, hk₂⟩ := projectMembers_spec hp ms hk₁
  refine ⟨_, by rw [projectAdd, h₁]; simp only [Except.bind_ok, h₂]; rfl, ?_⟩
  rw [hk₁.left, hk₂.left]
  exact ⟨fun h => if_pos h, fun h => ⟨st₂, if_neg h, hk₂⟩⟩

end

theorem projectPass_skip (now : Int) (b : EncKey → Bool) (projected : EncKey → Option Projected)
    (ds : List Command) (h : ∀ c ∈ cs, c.op.maximum = none) :
    projectPass now db b projected (cs ++ ds) = projectPass now db b projected ds := by
  induction cs
  case nil => rfl
  case cons c cs hi =>
    simp only [mem_cons, forall_eq_or_imp] at h
    rw [cons_append, projectPass, ← hi h.right]
    obtain ⟨key, op⟩ := c
    cases op <;> first | rfl | simp at h

theorem members_eq (ho : ordered = g.phase.ordered) (hm : ¬(logical db).Mismatch now g) :
    members (now / 1000000) db g.key.encode ordered =
    .ok ((logical db).members now g.key.encode) := by
  unfold Logical.Mismatch at hm
  unfold Logical.members
  rw [live_eq] at hm ⊢
  unfold members
  cases hf : find (now / 1000000) db g.key.encode
  case none => rfl
  case some x =>
    cases x <;> cases hp : g.phase.ordered <;>
      simp_all [Val.kind]

theorem projectCommand_add (h : g.phase.adds) :
    projectCommand now db b projected (groupCommand g) =
    if b g.key.encode then do
      let st ← projectAdd (card now db g.key.encode g.phase.ordered)
        (contains now db g.key.encode g.phase.ordered) g.maxMembers g.members
        (projected g.key.encode)
      return st.map fun st => update projected g.key.encode (some st)
    else
      .ok (some projected) := by
  obtain ⟨⟨key, ms, maximum⟩, phase⟩ := g
  cases phase
  case addMembers | addOrderedMembers => rfl
  case removeMembers | removeOrderedMembers => contradiction

theorem projectCommand_remove (h : ¬g.phase.adds) :
    projectCommand now db b projected (groupCommand g) = .ok (some projected) := by
  obtain ⟨⟨key, ms, maximum⟩, phase⟩ := g
  cases phase
  case addMembers | addOrderedMembers => exact absurd rfl h
  case removeMembers | removeOrderedMembers => rfl

-- The projection follows the logical state under every key that still gets bounded additions. It
-- stops following once members are removed, but no additions come after that.
theorem projectPass_groups (projected : EncKey → Option Projected) (σ : Logical)
    {gs : List (Group o)} (ht : ∀ g ∈ gs, ¬(logical db).Mismatch now g)
    (ho : gs.Pairwise fun g₁ g₂ => g₁.key.encode = g₂.key.encode → g₂.phase.adds → g₁.phase.adds)
    (hl : ∀ g ∈ gs, ¬(g.phase.adds ∧ b g.key.encode) → g.maxMembers ≤ 0)
    (hf : ∀ g ∈ gs, g.phase.adds → b g.key.encode → Follows (projected g.key.encode)
      ((logical db).members now g.key.encode) (σ.members now g.key.encode)) :
    ∃ r, projectPass (now / 1000000) db b projected (gs.map groupCommand) = .ok r ∧
      (r = true ↔ σ.Within now gs) := by
  induction gs generalizing σ projected
  case nil => exact ⟨true, rfl, by simp⟩
  case cons g gs hi =>
    obtain ⟨hog, ho⟩ := List.pairwise_cons.mp ho
    simp only [mem_cons, forall_eq_or_imp] at ht hl hf
    have hms (e : EncKey) : (σ.force now g).members now e =
        if e = g.key.encode then g.update (σ.members now g.key.encode) else σ.members now e :=
      Logical.members_store ..
    rw [map_cons, projectPass]
    by_cases ha : g.phase.adds ∧ b g.key.encode
    case neg =>
      have hc : projectCommand (now / 1000000) db b projected (groupCommand g) =
          .ok (some projected) := by
        by_cases hp : g.phase.adds
        case pos => rw [projectCommand_add hp, if_neg fun hb => ha ⟨hp, hb⟩]
        case neg => exact projectCommand_remove hp
      have hover : ¬σ.Over now g := fun h => absurd h.left (not_lt_of_ge (hl.left ha))
      have hf' : ∀ g' ∈ gs, g'.phase.adds → b g'.key.encode → Follows (projected g'.key.encode)
          ((logical db).members now g'.key.encode) ((σ.force now g).members now g'.key.encode) := by
        intro g' hm hp hb
        have hne : g'.key.encode ≠ g.key.encode :=
          fun he => ha ⟨hog g' hm he.symm hp, he ▸ hb⟩
        rw [hms, if_neg hne]
        exact hf.right g' hm hp hb
      obtain ⟨r, hr, hw⟩ := hi _ _ ht.right ho hl.right hf'
      exact ⟨r, by rw [hc]; exact hr, by simp [hw, hover]⟩
    case pos =>
      have hs := members_eq rfl ht.left
      have hp (m : Bytes) : contains (now / 1000000) db g.key.encode g.phase.ordered m =
          .ok (decide (m ∈ (logical db).members now g.key.encode)) := by
        rw [contains, hs]
        rfl
      have hn : card (now / 1000000) db g.key.encode g.phase.ordered =
          .ok ((logical db).members now g.key.encode).card := by
        rw [card, hs]
        rfl
      have hu : g.members.foldl (fun s m => insert m s) (σ.members now g.key.encode) =
          g.update (σ.members now g.key.encode) := by
        simp [Group.update, ha.left]
      obtain ⟨r, hr, hc⟩ := projectAdd_spec hp g.maxMembers g.members (hf.left ha.left ha.right)
      rw [hu] at hc
      rw [projectCommand_add ha.left, if_pos ha.right, hn, hr]
      by_cases hover : σ.Over now g
      case pos =>
        exact ⟨false, by rw [hc.left hover]; rfl, by simp [hover]⟩
      case neg =>
        obtain ⟨st, rfl, hk⟩ := hc.right hover
        have hf' : ∀ g' ∈ gs, g'.phase.adds → b g'.key.encode →
            Follows (update projected g.key.encode (some st) g'.key.encode)
              ((logical db).members now g'.key.encode)
              ((σ.force now g).members now g'.key.encode) := by
          intro g' hm hp hb
          rw [hms]
          by_cases he : g'.key.encode = g.key.encode
          case pos => simp only [he, Function.update_self, ↓reduceIte]; exact hk
          case neg => simpa [he] using hf.right g' hm hp hb
        obtain ⟨r, hr, hw⟩ := hi _ _ ht.right ho hl.right hf'
        exact ⟨r, hr, by simp [hw, hover]⟩

end ProjectPass

section WritePass

theorem exec_append (h : exec fs db = (.ok (), db')) : exec (fs ++ gs) db = exec gs db' := by
  induction fs generalizing db
  case nil => cases h; rfl
  case cons f fs hi =>
    unfold exec at h
    cases hf : f db <;> simp only [hf] at h
    case error => simp at h
    case ok =>
      simp only [cons_append, exec, hf]
      exact hi h

theorem members_collection (now : Int) (db : Keyspace) (e : EncKey) (ordered : Bool)
    (s : Finset Bytes) :
    members now (update db e (collection ordered s)) e ordered = .ok s := by
  unfold members find collection
  by_cases hs : s = ∅ <;> cases ordered <;> simp [hs, Option.filter_some]

theorem exec_changes (f : Bytes → Finset Bytes → Finset Bytes)
    (h : members now db e ordered = .ok s) (hn : ms ≠ []) :
    exec (ms.map fun m => change now e ordered (f m)) db =
    (.ok (), update db e (collection ordered (ms.foldl (fun s m => f m s) s))) := by
  induction ms generalizing db s
  case nil => contradiction
  case cons m ms hi =>
    have hc : change now e ordered (f m) db =
        .ok (update db e (collection ordered (f m s))) := by
      rw [change, h]
      rfl
    simp only [map_cons, exec, hc, List.foldl_cons]
    by_cases hm : ms = []
    case pos => subst hm; rfl
    case neg => rw [hi (members_collection ..) hm, Function.update_idem]

theorem writes_group (now : Int) (g : Group o) :
    (groupCommand g).writes now = g.members.map fun m => change now g.key.encode g.phase.ordered
      fun s => if g.phase.adds then insert m s else s.erase m := by
  unfold Command.writes groupCommand
  cases g.phase <;> rfl

theorem exec_groups {gs : List (Group o)} (hn : ∀ g ∈ gs, g.members ≠ [])
    (hk : Logical.Consistent gs) (ht : ∀ g ∈ gs, ¬(logical db).Mismatch now g) :
    ∃ db', exec ((gs.map groupCommand).flatMap (·.writes (now / 1000000))) db = (.ok (), db') ∧
      logical db' = gs.foldl (Logical.force now) (logical db) := by
  induction gs generalizing db
  case nil => exact ⟨db, rfl, rfl⟩
  case cons g gs hi =>
    have ⟨hkg, hk⟩ := List.pairwise_cons.mp hk
    simp only [mem_cons, forall_eq_or_imp] at hn ht
    have hw := exec_changes (fun m s => if g.phase.adds then insert m s else s.erase m)
      (members_eq rfl ht.left) hn.left
    have hl := logical_collection db g.key.encode g.phase.ordered
      (g.update ((logical db).members now g.key.encode))
    have ht' : ∀ g' ∈ gs, ¬(logical (update db g.key.encode (collection g.phase.ordered
        (g.update ((logical db).members now g.key.encode))))).Mismatch now g' := by
      intro g' hm
      rw [hl]
      exact mt (Logical.mismatch_force ht.left (hkg g' hm)).mp (ht.right g' hm)
    have ⟨db', hd, hs⟩ := hi hn.right hk ht'
    refine ⟨db', ?_, ?_⟩
    · rw [map_cons, flatMap_cons, writes_group, exec_append hw]
      exact hd
    · rw [hs, hl]
      rfl

theorem exec_conditions (now : Int) (cs : List (Condition o)) :
    (cs.map conditionCommand).flatMap (·.writes now) = [] := by
  induction cs
  case nil => rfl
  case cons c cs hi =>
    rw [map_cons, flatMap_cons, hi, List.append_nil]
    unfold Command.writes conditionCommand
    cases c.expected <;> rfl

theorem exec_entries (now : Int) (db : Keyspace) {entries : List (Entry o)}
    (h : ∀ entry ∈ entries, ∀ d ∈ entry.deadline, WholeMillis d) :
    ∃ db', exec ((entries.map entryCommand).flatMap (·.writes now)) db = (.ok (), db') ∧
      logical db' = (logical db).putAll entries := by
  induction entries generalizing db
  case nil => exact ⟨db, rfl, rfl⟩
  case cons entry entries hi =>
    simp only [mem_cons, forall_eq_or_imp] at h
    have hw : ∃ x, (entryCommand entry).writes now =
        [fun db => .ok (update db entry.key.encode (some x))] ∧
        x.toVal = .record entry.value entry.deadline := by
      unfold entryCommand Command.writes
      cases hd : entry.deadline
      case none => exact ⟨.string entry.value none, rfl, rfl⟩
      case some d =>
        obtain ⟨ms, h₀, h₁, rfl⟩ := h.left d hd
        refine ⟨.string entry.value (some ms), ?_, rfl⟩
        simp only [unixMilli_eq h₀ h₁, h₀.ne', ↓reduceIte, List.cons.injEq, and_true]
        ext1 db
        rw [setPxat, if_neg (not_le_of_gt h₀)]
    have ⟨x, hx, hv⟩ := hw
    have ⟨db', hd, hs⟩ := hi (update db entry.key.encode (some x)) h.right
    refine ⟨db', ?_, ?_⟩
    · rw [map_cons, flatMap_cons, hx]
      exact hd
    · rw [hs, logical_update, Option.map_some, hv]
      rfl

theorem exec_deletes (now : Int) (keys : List (Key o)) (db : Keyspace) :
    ∃ db', exec ((keys.map deleteCommand).flatMap (·.writes now)) db = (.ok (), db') ∧
      logical db' = (logical db).deleteAll keys := by
  induction keys generalizing db
  case nil => exact ⟨db, rfl, rfl⟩
  case cons k ks hi =>
    have ⟨db', hd, hs⟩ := hi (update db k.encode none)
    exact ⟨db', hd, by rw [hs, logical_update]; rfl⟩

end WritePass

section Script

variable {m : Mutation o}

-- The groups of one kind under one key: additions come before removals.
theorem adds_first (hk : Logical.Consistent m.groups) :
    m.groups.Pairwise fun g₁ g₂ =>
      g₁.key.encode = g₂.key.encode → g₂.phase.adds → g₁.phase.adds := by
  have hp : m.groups.Pairwise fun g₁ g₂ =>
      g₁.phase.ordered = g₂.phase.ordered → g₂.phase.adds → g₁.phase.adds := by
    have same (p : Phase) (l : List (SetMembers o)) :
        l.Pairwise fun _ _ => True → p.adds → p.adds :=
      List.pairwise_of_forall fun _ _ _ h => h
    simp only [Mutation.groups, List.pairwise_append, List.pairwise_map, mem_append,
      mem_map]
    refine ⟨⟨⟨same _ _, same _ _, ?_⟩, same _ _, ?_⟩, same _ _, ?_⟩
    · rintro _ _ _ ⟨_, _, rfl⟩ _ h
      contradiction
    · rintro _ (⟨_, _, rfl⟩ | ⟨_, _, rfl⟩) _ ⟨_, _, rfl⟩ h _ <;> contradiction
    · rintro _ _ _ ⟨_, _, rfl⟩ _ h
      contradiction
  exact (hk.and hp).imp fun ⟨h₁, h₂⟩ he => h₂ (h₁ he)

theorem bounded_of_pos (hg : g ∈ sentGroups m) (ha : g.phase.adds)
    (hp : 0 < g.maxMembers) : bounded (operations m) g.key.encode := by
  have hm : groupCommand g ∈ operations m :=
    List.mem_append_right _ (List.mem_map_of_mem hg)
  refine List.any_eq_true.mpr ⟨groupCommand g, hm, ?_⟩
  obtain ⟨⟨key, ms, maximum⟩, phase⟩ := g
  cases phase
  case addMembers | addOrderedMembers => simpa [groupCommand] using hp
  case removeMembers | removeOrderedMembers => contradiction

-- What the groups see: the state after the records were written.
def afterRecords (σ : Logical) (m : Mutation o) : Logical :=
  (σ.putAll m.entries).deleteAll m.deleteKeys

theorem afterRecords_apply (h : e ∉ m.records) : afterRecords σ m e = σ e := by
  simp only [Mutation.records, mem_append, mem_map, not_or, not_exists, not_and] at h
  have hput (entries : List (Entry o)) (σ : Logical) (hn : ∀ x ∈ entries, x.key.encode ≠ e) :
      σ.putAll entries e = σ e := by
    induction entries generalizing σ
    case nil => rfl
    case cons hi =>
      simp only [mem_cons, forall_eq_or_imp] at hn
      exact (hi _ hn.right).trans (update_of_ne hn.left.symm ..)
  have hdel (keys : List (Key o)) (σ : Logical) (hn : ∀ k ∈ keys, k.encode ≠ e) :
      σ.deleteAll keys e = σ e := by
    induction keys generalizing σ
    case nil => rfl
    case cons hi =>
      simp only [mem_cons, forall_eq_or_imp] at hn
      exact (hi _ hn.right).trans (update_of_ne hn.left.symm ..)
  rw [afterRecords, hdel _ _ h.right, hput _ _ h.left.right]

variable (hv : m.validate now = .ok ())
include hv

theorem live_afterRecords (hg : g ∈ sentGroups m) :
    (afterRecords σ m).live now g.key.encode = σ.live now g.key.encode := by
  have hf := (Mutation.validate_valid hv).fresh g (List.mem_of_mem_filter hg)
  rw [Logical.live, afterRecords_apply hf]
  rfl

theorem mismatch_afterRecords : (∀ g ∈ sentGroups m, ¬(afterRecords σ m).Mismatch now g) ↔
    ∀ g ∈ sentGroups m, ¬σ.Mismatch now g := by
  refine forall₂_congr fun g hg => ?_
  rw [Logical.Mismatch, Logical.Mismatch, live_afterRecords hv hg]

theorem checkPass_operations (hd : ∀ entry ∈ m.entries, ∀ d ∈ entry.deadline, WholeMillis d) :
    checkPass (now / 1000000) db (operations m) =
    match (logical db).checkConditions now m.conditions with
    | .error _ => .error .wrongType
    | .ok false => .ok (some 0)
    | .ok true =>
      if ∀ g ∈ sentGroups m, ¬(logical db).Mismatch now g then .ok none else .error .wrongType := by
  have hd (entry : Entry o) (he : entry ∈ m.entries) (d : Time) (h : d ∈ entry.deadline) :=
    And.intro ((Mutation.validate_valid hv).deadlines entry he d h) (hd entry he d h)
  simp only [operations, checkPass_append, checkPass_conditions, checkPass_entries hd,
    checkPass_deletes, checkPass_groups]
  cases (logical db).checkConditions now m.conditions
  case error => rfl
  case ok b => cases b <;> rfl

theorem projectPass_operations (ht : ∀ g ∈ sentGroups m, ¬(logical db).Mismatch now g) :
    ∃ r, projectPass (now / 1000000) db (bounded (operations m)) (fun _ => none) (operations m) =
        .ok r ∧
      (r = true ↔ (afterRecords (logical db) m).Within now (sentGroups m)) := by
  have v := Mutation.validate_valid hv
  have hs : ∀ c ∈ m.conditions.map conditionCommand ++ m.entries.map entryCommand ++
      m.deleteKeys.map deleteCommand, c.op.maximum = none := by
    simp only [mem_append, mem_map]
    rintro _ ((⟨c, _, rfl⟩ | ⟨_, _, rfl⟩) | ⟨_, _, rfl⟩)
    · unfold conditionCommand
      cases c.expected <;> rfl
    · rfl
    · rfl
  have hl : ∀ g ∈ sentGroups m, ¬(g.phase.adds ∧ bounded (operations m) g.key.encode) →
      g.maxMembers ≤ 0 := by
    intro g hg hn
    by_contra hp
    have ha : g.phase.adds := by
      by_contra ha
      exact hp ((v.limits g (List.mem_of_mem_filter hg)).right (by simpa using ha)).le
    exact hn ⟨ha, bounded_of_pos hg ha (by omega)⟩
  have hf : ∀ g ∈ sentGroups m, g.phase.adds → bounded (operations m) g.key.encode →
      Follows none ((logical db).members now g.key.encode)
        ((afterRecords (logical db) m).members now g.key.encode) := by
    intro g hg _ _
    simp only [Follows, Logical.members, live_afterRecords hv hg]
  obtain ⟨r, hr, hw⟩ := projectPass_groups (fun _ => none) _ ht
    ((adds_first v.kinds).filter _) hl hf
  exact ⟨r, by rw [operations, projectPass_skip _ _ _ _ hs, ← operations]; exact hr, hw⟩

theorem writePass_operations (hd : ∀ entry ∈ m.entries, ∀ d ∈ entry.deadline, WholeMillis d)
    (ht : ∀ g ∈ sentGroups m, ¬(logical db).Mismatch now g) :
    ∃ db', writePass (now / 1000000) (operations m) db = (.ok (), db') ∧
      logical db' = (sentGroups m).foldl (Logical.force now) (afterRecords (logical db) m) := by
  have ⟨db₁, h₁, hs₁⟩ := exec_entries (now / 1000000) db hd
  have ⟨db₂, h₂, hs₂⟩ := exec_deletes (now / 1000000) m.deleteKeys db₁
  have hs : logical db₂ = afterRecords (logical db) m := by rw [hs₂, hs₁, afterRecords]
  have ⟨db₃, h₃, hs₃⟩ := exec_groups (fun g hg => by simpa using List.of_mem_filter hg)
    ((Mutation.validate_valid hv).kinds.filter _) (hs ▸ (mismatch_afterRecords hv).mpr ht)
  refine ⟨db₃, ?_, by rw [hs₃, hs, sentGroups]⟩
  rw [writePass, operations]
  simp only [List.flatMap_append, exec_conditions, List.nil_append, List.append_assoc]
  rw [exec_append h₁, exec_append h₂]
  exact h₃

theorem applyMutation_logical (σ : Logical) :
    σ.applyMutation now m =
    match σ.checkConditions now m.conditions with
    | .error e => .error e
    | .ok false => .ok none
    | .ok true => some <$> (afterRecords σ m).applyGroups now (sentGroups m) := by
  simp only [Logical.applyMutation, hv, sentGroups, Logical.applyGroups_filter]
  cases σ.checkConditions now m.conditions
  case error => rfl
  case ok b => cases b <;> rfl

theorem script_cases (db : Keyspace)
    (hd : ∀ entry ∈ m.entries, ∀ d ∈ entry.deadline, WholeMillis d) :
    let result := script (now / 1000000) (operations m) db
    (result = (.ok 0, db) ∧ (logical db).applyMutation now m = .ok none) ∨
    (∃ db', result = (.ok 1, db') ∧ (logical db).applyMutation now m = .ok (some (logical db'))) ∨
    ((result = (.error .wrongType, db) ∨ result = (.ok (-2), db)) ∧
      ∃ e, (logical db).applyMutation now m = .error e ∧
        ((∀ g ∈ sentGroups m, ¬(logical db).Mismatch now g) ∨
          (afterRecords (logical db) m).Within now (sentGroups m) →
          reply result.fst = .error e)) := by
  intro result
  have hk := (Mutation.validate_valid hv).kinds.filter (·.members ≠ [])
  have hn : ∀ g ∈ sentGroups m, g.members ≠ [] := fun g hg => by simpa using List.of_mem_filter hg
  have hc : checkPass (now / 1000000) db (operations m) = _ := checkPass_operations hv hd
  rw [applyMutation_logical hv]
  cases hcond : (logical db).checkConditions now m.conditions <;> simp only [hcond] at hc ⊢
  case error e =>
    have hr : result = (.error .wrongType, db) := by simp only [result, script, hc]
    refine .inr (.inr ⟨.inl hr, e, rfl, fun _ => ?_⟩)
    rw [hr, checkConditions_error hcond]
    rfl
  case ok b =>
    cases b <;> simp only at hc ⊢
    case false => exact .inl ⟨by simp only [result, script, hc], trivial⟩
    case true =>
      by_cases ht : ∀ g ∈ sentGroups m, ¬(logical db).Mismatch now g
      all_goals
        have hg := Logical.applyGroups_cases now (afterRecords (logical db) m) hn hk
        rw [mismatch_afterRecords hv] at hg
      case neg =>
        have hr : result = (.error .wrongType, db) := by simp only [result, script, hc, if_neg ht]
        obtain ⟨e, he, _, hw⟩ := (hg.resolve_left fun h => ht h.left).right
        refine .inr (.inr ⟨.inl hr, e, by rw [he]; rfl, fun h => ?_⟩)
        rw [hr, hw (h.resolve_left ht)]
        rfl
      case pos =>
        rw [if_pos ht] at hc
        have ⟨r, hr, hw⟩ := projectPass_operations hv ht
        cases r
        case false =>
          have hr : result = (.ok (-2), db) := by simp only [result, script, hc, hr]
          have hw : ¬(afterRecords (logical db) m).Within now (sentGroups m) := by simpa using hw
          obtain ⟨e, he, hl, _⟩ := (hg.resolve_left fun h => hw h.right.left).right
          refine .inr (.inr ⟨.inr hr, e, by rw [he]; rfl, fun _ => ?_⟩)
          rw [hr, hl ht]
          rfl
        case true =>
          have ⟨db', hp, hl⟩ := writePass_operations hv hd ht
          have hr : result = (.ok 1, db') := by
            simp only [result, script, hc, hr, hp]
            rfl
          have hg := (hg.resolve_right fun h => h.left ⟨ht, hw.mp rfl⟩).right.right
          exact .inr (.inl ⟨db', hr, by rw [hg, hl]; rfl⟩)

end Script

-- A Redis keyspace and a memory store with the same logical contents answer the same mutation
-- alike.
theorem redis_agrees_with_memory {m : Mutation o} {data : Memory} {db : Keyspace}
    (hv : m.validate now = .ok ()) (hw : data.WF) (hs : data.logical = logical db)
    (hd : ∀ entry ∈ m.entries, ∀ d ∈ entry.deadline, WholeMillis d) :
    let result := script (now / 1000000) (operations m) db
    let memory := data.applyMutation now m
    (result.fst = .ok 0 ↔ memory = .ok none) ∧
    ((∃ f, result.fst = .error f) ∨ result.fst = .ok (-1) ∨ result.fst = .ok (-2) ↔
      ∃ e, memory = .error e) ∧
    (result.fst = .ok 1 ↔ ∃ data', memory = .ok (some data')) ∧
    (∀ data', memory = .ok (some data') → logical result.snd = data'.logical) ∧
    ((∀ g ∈ sentGroups m, ¬(logical db).Mismatch now g) ∨
      (afterRecords (logical db) m).Within now (sentGroups m) →
      ∀ e, memory = .error e → reply result.fst = .error e) ∧
    (result.fst ≠ .ok 1 → result.snd = db) ∧
    (checkPass (now / 1000000) db (operations m) = .ok none →
      (writePass (now / 1000000) (operations m) db).fst = .ok ()) := by
  intro result memory
  have hm : Except.Rel (Option.Rel Memory.Refines) memory ((logical db).applyMutation now m) :=
    hs ▸ Memory.applyMutation_refines hw m
  have hwrite : checkPass (now / 1000000) db (operations m) = .ok none →
      (writePass (now / 1000000) (operations m) db).fst = .ok () := by
    intro hc
    have ht : ∀ g ∈ sentGroups m, ¬(logical db).Mismatch now g := by
      by_contra ht
      rw [checkPass_operations hv hd] at hc
      split at hc <;> simp_all
    have ⟨db', hp, _⟩ := writePass_operations hv hd ht
    rw [hp]
  have result_cases := script_cases hv db hd
  rcases result_cases with ⟨hr, hl⟩ | ⟨db', hr, hl⟩ | ⟨hr, e, hl, he⟩
  case inl =>
    have hm : memory = .ok none := by
      obtain ⟨x, hx, hn⟩ := (hl ▸ hm).exists_of_ok
      cases hn
      exact hx
    have hr : result = (.ok 0, db) := hr
    simpa [hr, hm] using hwrite
  case inr.inl =>
    obtain ⟨x, hx, hn⟩ := (hl ▸ hm).exists_of_ok
    cases hn
    case some hd' =>
      have hr : result = (.ok 1, db') := hr
      simpa [hr, hx, hd'.right] using hwrite
  case inr.inr =>
    have hm : memory = .error e := (hl ▸ hm).eq_error
    have he' : (∀ g ∈ sentGroups m, ¬(logical db).Mismatch now g) ∨
        (afterRecords (logical db) m).Within now (sentGroups m) →
        reply result.fst = .error e := he
    have hr : result = (.error .wrongType, db) ∨ result = (.ok (-2), db) := hr
    rcases hr with hr | hr <;> rw [hr] at he'
    all_goals
      simp only [hr, hm]
      simpa using ⟨he', hwrite⟩

def putUntil (deadline : Time) : Mutation none :=
  ⟨[], [⟨sampleKey, [7], some deadline⟩], [], [], [], [], []⟩

theorem redis_agrees_with_memory_until_two_milliseconds :
    (script 1 (operations (putUntil 2000000)) fun _ => none).fst = .ok 1 := by
  have hv : (putUntil 2000000).validate 1200000 = .ok () := rfl
  refine (redis_agrees_with_memory hv Memory.empty_wf rfl ?_).right.right.left.mpr ⟨_, rfl⟩
  intro entry he d hd
  cases List.mem_singleton.mp he
  cases hd
  exact ⟨2, by decide⟩

-- Redis counts in milliseconds: a deadline within the current one has passed.
theorem redis_rejects_half_millisecond : (putUntil 1700000).validate 1200000 = .ok () ∧
    (Memory.empty.call ⟨1200000, .applyMutation (putUntil 1700000)⟩).fst = .ok true ∧
    (script 1 (operations (putUntil 1700000)) fun _ => none).fst = .ok (-1) := by
  decide

end GizClaw.KV.Redis

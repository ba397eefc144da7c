import GizClaw.Social.Sample
import GizClaw.Social.Theorems.Recovery

-- What a pass of the repair achieves when no other worker acts and no store call fails.

namespace GizClaw.Social.Recovery

open Interleaving (Program Since)
open PendingDeletion (Text ascii)
open KV.Typed (Mutation Names)

attribute [local simp] detachMutation Mutation.groups

section Calls

variable {P : Platform} {s s' : State} {k : Key} {α : Type}
variable {buckets : List Text} {σ : Store} {m : Mutation Key Bytes Text}

theorem post_act {f : Reply a → Call α}
    (h : ∀ r s', calm P a s r s' → (f r).Post (calm P) Q s') : (act a >>= f).Post (calm P) Q s :=
  h

theorem members_of_listMembers (h : σ.listMembers k = .ok members) :
    σ.members false k = members := by
  unfold KV.Typed.Store.listMembers at h
  unfold KV.Typed.Store.members
  split at h
  case h_1 hk | h_2 hk => rw [hk]; cases h; rfl
  case h_3 => nomatch h

theorem listMembers_error (h : σ.listMembers k = .error err) :
    err = .wrongType ∧ σ.members false k = ∅ := by
  unfold KV.Typed.Store.listMembers at h
  unfold KV.Typed.Store.members
  split at h
  case h_1 | h_2 => nomatch h
  case h_3 c hm hk =>
    cases h
    refine ⟨rfl, ?_⟩
    rw [hk]
    match c, hm with
    | .record _, _ => rfl
    | .members true _, _ => rfl
    | .members false t, hm => exact (hm t rfl).elim

theorem members_of_none (hk : σ k = none) : σ.members false k = ∅ := by
  unfold KV.Typed.Store.members
  rw [hk]

theorem calm_listMembers (hs : Encoded P s.store) (h : calm P (.listMembers k) s r s') : s' = s ∧
      ((∃ l : List Text, r = .ok l ∧ l.Nodup ∧ ∀ m, m ∈ l ↔ m ∈ s.store.members false k) ∨
        (∃ err, r = .error err ∧ (P.encodable k → err = .wrongType) ∧
        s.store.members false k = ∅)) := by
  obtain ⟨h, hfails⟩ := h
  cases h
  case listMembers l hnodup hl he hm =>
    rw [members_of_listMembers hm]
    exact ⟨rfl, .inl ⟨l, rfl, hnodup, hl⟩⟩
  case notListed err he hm =>
    have ⟨herr, hempty⟩ := listMembers_error hm
    exact ⟨rfl, .inr ⟨err, rfl, fun _ => herr, hempty⟩⟩
  case listFailed message =>
    have hk : ¬P.encodable k := fun hk => hfails ⟨hk, message, rfl⟩
    exact ⟨rfl, .inr ⟨_, rfl, fun he => absurd he hk, members_of_none (hs k hk)⟩⟩

theorem calm_get (hs : Encoded P s.store) (h : calm P (.get k) s r s') : s' = s ∧
    ((∃ value, r = .ok value ∧ s.store k = some (.record value)) ∨
      (∃ err, r = .error err ∧ ∀ value, s.store k ≠ some (.record value))) := by
  obtain ⟨h, hfails⟩ := h
  cases h
  case get =>
    refine ⟨rfl, ?_⟩
    match hg : s.store.get k with
    | .ok value => exact .inl ⟨value, rfl, KV.Typed.Store.get_eq_ok.mp hg⟩
    | .error err =>
      refine .inr ⟨err, rfl, fun value hk => ?_⟩
      nomatch hg.symm.trans (KV.Typed.Store.get_eq_ok.mpr hk)
  case getFailed message =>
    have hk : ¬P.encodable k := fun hk => hfails ⟨hk, message, rfl⟩
    refine ⟨rfl, .inr ⟨_, rfl, fun value hv => ?_⟩⟩
    nomatch (hs k hk).symm.trans hv

-- Where the conditions hold, the mutation goes through.
theorem calm_apply (h : calm P (.apply m) s r s')
    (hm : ∀ c ∈ m.conditions, s.store c.key = c.expected.map .record) :
    r = .ok true ∧ s'.attempted = s.attempted ∧ encodes P m ∧ s.store.applyMutation m =
      .ok (some s'.store) := by
  obtain ⟨h, hfails⟩ := h
  cases h
  case applied he h => exact ⟨rfl, rfl, he, h⟩
  case unmatched h => exact absurd h (KV.Typed.Store.applyMutation_ne_none hm)
  all_goals exact absurd ⟨_, rfl⟩ hfails

theorem calm_apply_any (h : calm P (.apply m) s r s') :
    (∃ done, r = .ok done) ∧ s'.attempted = s.attempted ∧
      (s'.store = s.store ∨ encodes P m ∧ s.store.applyMutation m = .ok (some s'.store)) := by
  obtain ⟨h, hfails⟩ := h
  cases h
  case applied he h => exact ⟨⟨_, rfl⟩, rfl, .inr ⟨he, h⟩⟩
  case unmatched => exact ⟨⟨_, rfl⟩, rfl, .inl rfl⟩
  all_goals exact absurd ⟨_, rfl⟩ hfails

end Calls

section Coverage

variable (P : Platform)

-- The identities that the pass has to place are placed, or stand in a bucket that is still to be
-- visited.
structure Pass (targets : Text → Prop) (todo : Text → Text → Prop) (known : List Text)
    (s : State) : Prop where
  covered : ∀ id, targets id → Outstanding P s.store id → Placed P s.store id ∨
    ∃ bucket member, todo bucket member ∧ member ∈ s.store.members false (.bucket bucket) ∧
      P.trimSpace member = id
  encoded : Encoded P s.store
  directory : ∀ bucket ∈ known, canonicalRecoveryBucket bucket →
    bucket ∈ s.store.members false .directory
  once : s.attempted.Nodup
  attempted : ∀ id ∈ s.attempted, ¬todo (P.bucket id) id

variable {P} {targets : Text → Prop} {todo todo' : Text → Text → Prop} {known : List Text}
  {s s' : State}

variable (h : Pass P targets todo known s)
include h

theorem Pass.keeps (hk : Keeps P s.store s'.store) (he : Encoded P s'.store)
    (ha : s'.attempted = s.attempted) : Pass P targets todo known s' where
  covered := fun id ht ho => by
    rcases hk.record id ho with ho' | hp
    case inr => exact .inl hp
    case inl =>
      rcases h.covered id ht ho' with hp | ⟨bucket, member, htodo, hm, rfl⟩
      case inl => exact .inl (hk.placed ho hp)
      case inr =>
        rcases hk.member bucket member ho hm with hm | hp
        · exact .inr ⟨bucket, member, htodo, hm, rfl⟩
        · exact .inl hp
  encoded := he
  directory := fun b hb hc => hk.directory b hc (h.directory b hb hc)
  once := ha ▸ h.once
  attempted := ha ▸ h.attempted

-- What is visited and settled is no longer to be done.
theorem Pass.settle (hsub : ∀ b m, todo' b m → todo b m)
    (hsettled : ∀ b m, todo b m → ¬todo' b m → m ∈ s.store.members false (.bucket b) →
      Outstanding P s.store (P.trimSpace m) → Placed P s.store (P.trimSpace m)) :
    Pass P targets todo' known s where
  covered := fun id ht ho => by
    rcases h.covered id ht ho with hp | ⟨bucket, member, htodo, hm, rfl⟩
    case inl => exact .inl hp
    case inr =>
      by_cases htodo' : todo' bucket member
      case pos => exact .inr ⟨bucket, member, htodo', hm, rfl⟩
      case neg => exact .inl (hsettled bucket member htodo htodo' hm ho)
  encoded := h.encoded
  directory := h.directory
  once := h.once
  attempted := fun id hid htodo => h.attempted id hid (hsub _ _ htodo)

theorem Pass.learn
    (hb : canonicalRecoveryBucket bucket → bucket ∈ s.store.members false .directory) :
    Pass P targets todo (bucket :: known) s :=
  { h with directory := List.forall_mem_cons.mpr ⟨hb, h.directory⟩ }

-- A repair that changes the store and nothing else.
theorem Pass.repair (hm : Repair P m) (he : encodes P m)
    (hs : s.store.applyMutation m = .ok (some s'.store)) (ha : s'.attempted = s.attempted) :
    Pass P targets todo known s' :=
  h.keeps (keeps_of_repair hm hs) (h.encoded.apply he hs) ha

end Coverage

section Visits

variable {P : Platform} {targets : Text → Prop} {todo : Text → Text → Prop}
  {known : List Text} {s : State}
variable {bucket member : Text}

-- The member does not need another visit.
structure Settled (P : Platform) (bucket member : Text) (s : State) : Prop where
  placed : member ∈ s.store.members false (.bucket bucket) → Outstanding P s.store
    (P.trimSpace member) →
    Placed P s.store (P.trimSpace member)

theorem post_repairMember (h : Pass P targets todo known s) (hb : canonicalRecoveryBucket bucket →
    bucket ∈ known) :
    (repairMember P bucket member).Post (calm P) (fun s' r => Pass P targets todo known s' ∧
      s'.attempted = s.attempted ∧ Settled P bucket member s' ∧
        (r = .ok true → P.bucket member = bucket)) s := by
  dsimp only [repairMember]
  split
  case isTrue hid =>
    refine post_act fun r s' hcalm => ?_
    obtain ⟨⟨done, hr⟩, ha, hs⟩ := calm_apply_any hcalm
    subst hr
    refine ⟨?_, ha, ⟨fun _ ho => absurd hid ho.nonempty⟩, (by rintro ⟨⟩)⟩
    rcases hs with hs | ⟨he, hs⟩
    · exact h.keeps (hs ▸ .refl) (hs ▸ h.encoded) ha
    · exact h.repair (.blank bucket hid) he hs ha
  case isFalse =>
    refine post_act fun r s' hcalm => ?_
    obtain ⟨rfl, hget⟩ := calm_get h.encoded hcalm
    rcases hget with ⟨value, rfl, hvalue⟩ | ⟨err, rfl, hnone⟩
    case inl =>
      dsimp only
      split
      case isTrue hready =>
        obtain ⟨htrim, rfl⟩ := hready
        rw [← htrim]
        refine ⟨h, rfl, ⟨fun hm _ => ?_⟩, fun _ => rfl⟩
        rw [← htrim]
        have hc := P.bucket_canonical member
        exact ⟨hm, h.directory _ (htrim ▸ hb (htrim ▸ hc)) hc⟩
      case isFalse hn =>
        refine post_act fun r s'' hcalm => ?_
        obtain ⟨hr, ha, he, hs⟩ := calm_apply hcalm (by simp [memberMutation, hvalue])
        subst hr
        exact ⟨h.repair (.move value hn) he hs ha, ha,
          ⟨fun _ _ => placed_of_move hn hs⟩, (by rintro ⟨⟩)⟩
    case inr =>
      have hgone : ¬Outstanding P s'.store (P.trimSpace member) :=
        fun ho => ho.record.elim fun value hvalue => hnone value hvalue
      split
      case h_3 => contradiction
      case h_2 => exact ⟨h, rfl, ⟨fun _ ho => absurd ho hgone⟩, (by rintro ⟨⟩)⟩
      case h_1 =>
        refine post_act fun r s'' hcalm => ?_
        obtain ⟨⟨done, hr⟩, ha, hs⟩ := calm_apply_any hcalm
        subst hr
        rcases hs with hs | ⟨he, hs⟩
        case inl =>
          refine ⟨h.keeps (hs ▸ .refl) (hs ▸ h.encoded) ha, ha,
            ⟨fun _ ho => absurd ?_ hgone⟩, (by rintro ⟨⟩)⟩
          exact hs ▸ ho
        case inr =>
          have hm := Repair.stale (P := P) bucket member
          refine ⟨h.repair hm he hs ha, ha, ⟨fun _ ho => absurd ?_ hgone⟩, (by rintro ⟨⟩)⟩
          exact ⟨ho.nonempty, ho.trimmed, (record_of_repair hm hs _) ▸ ho.record⟩

-- What is done with the members that are ready, each for the first time.
def Attempts (P : Platform) (targets : Text → Prop) (bucket : Text)
    (ready : Text → Call (List KV.Err)) : Prop :=
  ∀ todo known s member, P.bucket member = bucket → member ∉ s.attempted → ¬todo bucket member →
    Pass P targets todo known s → (ready member).Post (calm P)
      (fun s' _ => Pass P targets todo known s') s

theorem attempts_attempt : Attempts P targets bucket attempt := by
  intro todo known s member hb hm htodo h
  refine post_act fun r s' hcalm => ?_
  cases hcalm.left
  case attempt σ hworks =>
    have hkeeps : Pass P targets todo known ⟨σ, s.attempted⟩ :=
      h.keeps (keeps_of_works hworks) (h.encoded.works hworks) rfl
    have hpass : Pass P targets todo known ⟨σ, member :: s.attempted⟩ :=
      { hkeeps with
        once := List.nodup_cons.mpr ⟨hm, h.once⟩
        attempted := List.forall_mem_cons.mpr ⟨hb ▸ htodo, h.attempted⟩ }
    cases r <;> exact hpass

theorem attempts_pure : Attempts P targets bucket fun _ => pure [] :=
  fun _ _ _ _ _ _ _ h => h

variable {rest : Text → Prop} {ready : Text → Call (List KV.Err)}

theorem post_visitMembers (hrest : ¬rest bucket) (hready : Attempts P targets bucket ready)
    (hb : canonicalRecoveryBucket bucket → bucket ∈ known) (hnodup : members.Nodup)
    (h : Pass P targets (fun b m => rest b ∨ b = bucket ∧ m ∈ members) known s) :
    (visitMembers P bucket ready members).Post (calm P)
    (fun s' _ => Pass P targets (fun b _ => rest b) known s')
      s := by
  induction members generalizing s
  case nil =>
    refine h.settle (fun _ _ => .inl) fun b m htodo hn => ?_
    exact (htodo.elim hn fun hm => nomatch hm.right).elim
  case cons member members hi =>
    have ⟨hmember, hnodup⟩ := List.nodup_cons.mp hnodup
    refine (post_repairMember h hb).bind fun s' r ⟨hpass, ha, hsettled, hr⟩ => ?_
    have hpop : Pass P targets (fun b m => rest b ∨ b = bucket ∧ m ∈ members) known s' := by
      refine hpass.settle (fun b m => Or.imp_right fun hm =>
        ⟨hm.left, List.mem_cons_of_mem _ hm.right⟩) ?_
      intro b m htodo hn hm ho
      rcases htodo with htodo | ⟨rfl, htodo⟩
      · exact absurd (.inl htodo) hn
      · rcases List.mem_cons.mp htodo with rfl | htodo
        · exact hsettled.placed hm ho
        · exact absurd (.inr ⟨rfl, htodo⟩) hn
    have hmore {s : State} (errs : List KV.Err)
        (h : Pass P targets (fun b m => rest b ∨ b = bucket ∧ m ∈ members) known s) :
        (visitMembers P bucket ready members >>= fun more => pure (errs ++ more)).Post (calm P)
          (fun s' _ => Pass P targets (fun b _ => rest b) known s') s :=
      (hi hnodup h).bind fun _ _ h => h
    match r with
    | .error err => exact hmore [err] hpop
    | .ok false => exact hmore [] hpop
    | .ok true =>
      have hfresh : member ∉ s'.attempted := by
        rw [ha]
        exact fun hm => h.attempted member hm (.inr ⟨hr rfl, List.mem_cons_self⟩)
      have hdone : ¬(rest bucket ∨ bucket = bucket ∧ member ∈ members) :=
        fun hn => hn.elim hrest fun hm => hmember hm.right
      exact (hready _ known s' member (hr rfl) hfresh hdone hpop).bind fun s errs h => hmore errs h

theorem post_enlist (hc : canonical = canonicalRecoveryBucket bucket) (hk : ∀ b ∈ k, b ∈ known)
    (hids : ids ≠ []) (h : Pass P targets todo known s) :
    (enlist bucket canonical k ids).Post (calm P)
    (fun s' _ => Pass P targets todo (bucket :: known) s') s := by
  unfold enlist
  split
  case isTrue hif =>
    simp only [Bool.and_eq_true] at hif
    refine post_act fun r s' hcalm => ?_
    have ⟨hr, ha, he, hs⟩ := calm_apply hcalm (fun _ hc => nomatch hc)
    subst hr
    have hplain : Plain (directoryMutation bucket) .directory :=
      ⟨rfl, rfl, (fun _ he => nomatch he), List.not_mem_nil⟩
    refine (h.repair (.enlist (hc ▸ hif.left.left)) he hs ha).learn fun _ =>
      (hplain.mem hs).mpr ⟨.inr ?_, ?_⟩
    case refine_1 => exact ⟨_, List.mem_singleton_self _, rfl, List.mem_singleton_self _⟩
    case refine_2 => exact fun ⟨_, hn, _⟩ => nomatch hn
  case isFalse hif =>
    refine h.learn fun hb => h.directory bucket (hk bucket ?_) hb
    simpa [hc, hb, hids] using hif

theorem Pass.forget (h : Pass P targets todo (bucket :: known) s) : Pass P targets todo known s :=
  { h with directory := fun b hb => h.directory b (List.mem_cons_of_mem _ hb) }

theorem post_repairBucket (hrest : ¬rest bucket) (hready : Attempts P targets bucket ready)
    (hc : canonical = canonicalRecoveryBucket bucket) (hk : ∀ b ∈ k, b ∈ known)
    (h : Pass P targets (fun b _ => rest b ∨ b = bucket) known s) :
    (repairBucket P bucket canonical k ready).Post (calm P)
      (fun s' _ => Pass P targets (fun b _ => rest b) known s') s := by
  refine post_act fun r s' hcalm => ?_
  obtain ⟨rfl, hlist⟩ := calm_listMembers h.encoded hcalm
  -- A bucket without members has nothing left to do.
  have hempty (hnone : s'.store.members false (.bucket bucket) = ∅) :
      Pass P targets (fun b _ => rest b) known s' := by
    refine h.settle (fun _ _ => .inl) fun b m htodo hn hm => ?_
    obtain rfl := htodo.resolve_left hn
    rw [hnone] at hm
    exact absurd hm (Finset.notMem_empty m)
  rcases hlist with ⟨ids, rfl, hnodup, hids⟩ | ⟨err, rfl, _, hnone⟩
  case inr => exact hempty hnone
  case inl =>
    match ids with
    | [] =>
      have hpass := hempty (Finset.eq_empty_of_forall_notMem fun m hm => nomatch (hids m).mpr hm)
      have hnothing : enlist bucket canonical k [] = pure [] := by simp [enlist]
      dsimp only
      rw [hnothing]
      exact hpass
    | id :: ids =>
      have hsorted := List.perm_insertionSort (· ≤ ·) (id :: ids)
      have hvisit : Pass P targets
          (fun b m => rest b ∨ b = bucket ∧ m ∈ (id :: ids).insertionSort (· ≤ ·)) known s' := by
        refine h.settle (fun b m => Or.imp_right And.left) fun b m htodo hn hm => absurd ?_ hn
        refine htodo.imp_right fun hb => ⟨hb, hsorted.mem_iff.mpr ((hids m).mpr ?_)⟩
        exact hb ▸ hm
      refine (post_enlist hc hk (List.cons_ne_nil _ _) hvisit).bind fun s₁ errs h₁ => ?_
      refine (post_visitMembers hrest hready (fun _ => List.mem_cons_self) ?_ h₁).bind
        fun s₂ _ h₂ => h₂.forget
      exact hsorted.nodup_iff.mpr hnodup

theorem post_repairInvalidBucket (hrest : ¬rest bucket) (hc : ¬canonicalRecoveryBucket bucket)
    (h : Pass P targets (fun b _ => rest b ∨ b = bucket) known s) :
    (repairInvalidBucket P bucket).Post (calm P)
    (fun s' _ => Pass P targets (fun b _ => rest b) known s') s := by
  have hfalse : false = canonicalRecoveryBucket bucket := (Bool.eq_false_of_not_eq_true hc).symm
  refine (post_repairBucket hrest attempts_pure hfalse (k := []) (by simp) h).bind
    fun s' errs h' => ?_
  match errs with
  | _ :: _ => exact h'
  | [] =>
    refine post_act fun r s'' hcalm => ?_
    have ⟨⟨done, hr⟩, ha, hs⟩ := calm_apply_any hcalm
    subst hr
    rcases hs with hs | ⟨he, hs⟩
    · exact h'.keeps (hs ▸ .refl) (hs ▸ h'.encoded) ha
    · exact h'.repair (.detach hc) he hs ha

-- The buckets of the directory that are visited in addition to the canonical ones.
@[local simp]
def invalidNames (buckets : List Text) : List Text :=
  buckets.filter fun b => !canonicalRecoveryBucket b

theorem post_repairInvalid (hnodup : buckets.Nodup) (hroom : (invalidNames buckets).length ≤ room)
    (hk : ∀ b ∈ buckets, b ∈ known)
    (h : Pass P targets (fun b _ => canonicalRecoveryBucket b ∨ b ∈ buckets) known s) :
    (repairInvalid P room buckets).Post (calm P)
      (fun s' r => Pass P targets (fun b _ => canonicalRecoveryBucket b) known s' ∧ ∀ b ∈ r.snd,
      b ∈ known) s := by
  induction buckets generalizing room s
  case nil =>
    unfold repairInvalid
    refine ⟨h.settle (fun _ _ => .inl) fun b m htodo hn => ?_, fun _ hb => by cases hb⟩
    exact (htodo.elim hn fun hm => by cases hm).elim
  case cons bucket buckets hi =>
    obtain ⟨hbucket, hnodup⟩ := List.nodup_cons.mp hnodup
    obtain ⟨hb, hk⟩ := List.forall_mem_cons.mp hk
    unfold repairInvalid
    split
    case isTrue hc =>
      have hroom : (invalidNames buckets).length ≤ room := by simpa [hc] using hroom
      refine (hi hnodup hroom hk ?_).bind fun s' r h' =>
        ⟨h'.left, List.forall_mem_cons.mpr ⟨hb, h'.right⟩⟩
      refine h.settle (fun b m => Or.imp_right (List.mem_cons_of_mem _)) fun b m htodo
        hn => absurd ?_ hn
      rcases htodo with htodo | htodo
      · exact .inl htodo
      · rcases List.mem_cons.mp htodo with rfl | htodo
        · exact .inl hc
        · exact .inr htodo
    case isFalse hc =>
      cases room
      case zero => simp [hc] at hroom
      case succ room =>
        have hroom : (invalidNames buckets).length ≤ room := by simpa [hc] using hroom
        have hnext : Pass P targets (fun b _ => (canonicalRecoveryBucket b ∨ b ∈ buckets) ∨ b =
            bucket) known s := by
          refine h.settle (fun b m htodo => ?_) fun b m htodo hn => absurd ?_ hn
          all_goals
            rw [List.mem_cons] at *
            tauto
        have hrest : ¬(canonicalRecoveryBucket bucket ∨ bucket ∈ buckets) :=
            fun hn => hn.elim hc hbucket
        exact (post_repairInvalidBucket hrest hc hnext).bind fun s' _ h' =>
          (hi hnodup hroom hk h').bind fun s'' r h'' => h''

theorem post_repairBuckets (hc : ∀ b ∈ buckets, canonicalRecoveryBucket b) (hnodup : buckets.Nodup)
    (hk : ∀ b ∈ k, b ∈ known) (h : Pass P targets (fun b _ => b ∈ buckets) known s) :
    (repairBuckets P k buckets).Post (calm P)
    (fun s' _ => Pass P targets (fun _ _ => False) known s') s := by
  induction buckets generalizing s
  case nil => exact h.settle (fun _ _ => False.elim) fun _ _ hb => nomatch hb
  case cons bucket buckets hi =>
    have ⟨hb, hc⟩ := List.forall_mem_cons.mp hc
    have ⟨hbucket, hnodup⟩ := List.nodup_cons.mp hnodup
    have hnext : Pass P targets (fun b _ => b ∈ buckets ∨ b = bucket) known s := by
      refine h.settle (fun b m htodo => ?_) fun b m htodo hn => absurd ?_ hn
      case refine_1 => exact List.mem_cons.mpr htodo.symm
      case refine_2 => exact (List.mem_cons.mp htodo).symm
    exact (post_repairBucket hbucket attempts_attempt hb.symm hk hnext).bind fun s' _ h' =>
      (hi hc hnodup h').bind fun s'' _ h'' => h''

theorem post_repairListed (hnodup : buckets.Nodup)
    (hroom : (invalidNames buckets).length ≤ maxInvalidBuckets)
    (h : Pass P targets (fun b _ => canonicalRecoveryBucket b ∨ b ∈ buckets) buckets s) :
    (repairListed P buckets).Post (calm P)
    (fun s' _ => Pass P targets (fun _ _ => False) buckets s') s := by
  refine (post_repairInvalid hnodup hroom (fun _ hb => hb) h).bind fun s' r ⟨h', hr⟩ => ?_
  have hnames : Pass P targets (fun b _ => b ∈ bucketNames) buckets s' :=
    h'.settle (fun _ _ => canonical_iff.mpr) fun _ _ hb hn => absurd (canonical_iff.mp hb) hn
  exact (post_repairBuckets (fun _ => canonical_iff.mpr) nodup_bucketNames hr hnames).bind
    fun _ _ h'' => h''

theorem post_relist (h : Pass P targets todo known s) :
    relist.Post (calm P) (fun s' _ => Pass P targets todo known s') s := by
  refine post_act fun r s' hcalm => ?_
  obtain ⟨rfl, _⟩ := calm_listMembers h.encoded hcalm
  cases r <;> exact h

theorem post_repairDirectoryType (h : Pass P targets todo known s) :
    repairDirectoryType.Post (calm P) (fun s' _ => Pass P targets todo known s') s := by
  refine post_act fun r s' hcalm => ?_
  obtain ⟨rfl, hget⟩ := calm_get h.encoded hcalm
  rcases hget with ⟨value, rfl, hvalue⟩ | ⟨err, rfl, _⟩
  case inl =>
    refine post_act fun r s'' hcalm => ?_
    have ⟨hr, ha, he, hs⟩ := calm_apply hcalm (by simp [resetMutation, hvalue])
    subst hr
    exact h.repair (.reset value) he hs ha
  case inr =>
    split
    case h_1 | h_2 => exact post_relist h
    case h_3 => exact h
    case h_4 => contradiction

-- A member of a bucket that a pass comes to.
def Discoverable (P : Platform) (σ : Store) (id : Text) : Prop :=
  ∃ bucket member, (canonicalRecoveryBucket bucket ∨ bucket ∈ σ.members false .directory) ∧
    member ∈ σ.members false (.bucket bucket) ∧ P.trimSpace member = id

-- The names in the directory that are not canonical.
def invalidBuckets (σ : Store) : Finset Text :=
  (σ.members false .directory).filter fun bucket => !canonicalRecoveryBucket bucket

theorem pass_init (he : Encoded P σ) (hb : ∀ b, b ∈ buckets ↔ b ∈ σ.members false .directory) :
    Pass P (Discoverable P σ) (fun b _ => canonicalRecoveryBucket b ∨ b ∈ buckets)
      buckets ⟨σ, []⟩ where
  covered := fun _ ⟨bucket, member, hd, hm, hid⟩ _ =>
    .inr ⟨bucket, member, hd.imp_right (hb bucket).mpr, hm, hid⟩
  encoded := he
  directory := fun b hm _ => (hb b).mp hm
  once := List.nodup_nil
  attempted := fun _ hid => nomatch hid

theorem length_invalidNames (hnodup : buckets.Nodup)
    (hb : ∀ b, b ∈ buckets ↔ b ∈ σ.members false .directory) :
    (invalidNames buckets).length = (invalidBuckets σ).card := by
  have hset : invalidBuckets σ = (invalidNames buckets).toFinset := by
    ext b
    simp [invalidBuckets, hb]
  rw [hset]
  exact (List.toFinset_card_of_nodup (hnodup.filter _)).symm

theorem post_reconcile (he : Encoded P σ) (hroom : (invalidBuckets σ).card ≤ maxInvalidBuckets) :
    (reconcile P).Post (calm P)
      (fun s' _ => ∃ known, Pass P (Discoverable P σ) (fun _ _ => False) known s') ⟨σ, []⟩ := by
  refine post_act fun r s' hcalm => ?_
  obtain ⟨rfl, hlist⟩ := calm_listMembers he hcalm
  rcases hlist with ⟨buckets, rfl, hnodup, hb⟩ | ⟨err, rfl, herr, hnone⟩
  case inl =>
    refine (post_repairListed hnodup ?_ (pass_init he hb)).mono fun _ _ h => ⟨buckets, h⟩
    rw [length_invalidNames hnodup hb]
    exact hroom
  case inr =>
    obtain rfl := herr P.encodable_directory
    have hb : ∀ b, b ∈ ([] : List Text) ↔
        b ∈ σ.members false .directory := by simp [show σ.members _ _ = ∅ from hnone]
    refine (post_repairDirectoryType (pass_init he hb)).bind fun s₁ r h₁ => ?_
    have hmore (errs : List KV.Err) :
        (repairListed P [] >>= fun more => pure (errs ++ more)).Post (calm P)
        (fun s' _ => ∃ known, Pass P (Discoverable P σ) (fun _ _ => False) known s') s₁ :=
      (post_repairListed List.nodup_nil (Nat.zero_le _) h₁).bind fun _ _ h => ⟨[], h⟩
    match r with
    | .error err => exact hmore [err]
    | .ok _ => exact hmore []

end Visits

section Results

variable (P : Platform)

-- A pass by itself leaves what it can discover in place, and attempts it at most once.
def Recovers (σ : Store) : Prop :=
  (reconcile P).Post (calm P) (fun s' _ => ∀ id, Discoverable P σ id → Outstanding P s'.store id →
    Placed P s'.store id ∧ s'.attempted.count id ≤ 1) ⟨σ, []⟩

-- A step takes away no membership of work whose record exists, unless it puts the work in its
-- place.
def Spares (σ σ' : Store) : Prop :=
  ∀ id, Outstanding P σ id → ∀ bucket member, P.trimSpace member = id →
    member ∈ σ.members false (.bucket bucket) → member ∉ σ'.members false (.bucket bucket) →
      Placed P σ' id

variable {P}

theorem spares_of_does (ha : Repairs P a) (hattempt : ∀ id, a ≠ .attempt id)
    (h : Does P a s r s') : Spares P s.store s'.store := by
  rintro id ho bucket member rfl hm hn
  refine ((keeps_of_does ha h).member bucket member ⟨ho.nonempty, ho.trimmed, ?_⟩
    hm).resolve_left hn
  cases h
  case applied h | replyLost h => exact ho.record.imp fun _ => (record_of_repair ha h _).trans
  case attempt => exact absurd rfl (hattempt _)
  all_goals exact ho.record

theorem repair_hides_no_work (P : Platform) :
    (∀ i c₀ c a next r s', Since (Does P) (program P) i .reconcile c₀ c → c.programs i =
    some (.act a next) →
      (∀ id, a ≠ .attempt id) → Does P a c.shared r s' → Spares P c.shared.store s'.store) ∧
    ∀ σ, Encoded P σ → (invalidBuckets σ).card ≤ maxInvalidBuckets → Recovers P σ := by
  refine ⟨fun i c₀ c a next r s' hsince hp hattempt h => ?_, fun σ he hroom => ?_⟩
  case refine_1 =>
    have hall : (program P .reconcile).All (Repairs P) := all_reconcile
    exact spares_of_does (hall.rest (Program.Rest.of_since hsince hp)).left hattempt h
  case refine_2 =>
    refine (post_reconcile he hroom).mono fun s' _ ⟨known, h⟩ id hd ho => ⟨?_, ?_⟩
    case refine_1 => exact (h.covered id hd ho).resolve_right fun ⟨_, _, hn, _⟩ => hn
    case refine_2 => exact List.nodup_iff_count_le_one.mp h.once id

end Results

section Samples

def Platform.sample : Platform where
  toPlatform := { Social.Sample.platform with bucket := fun _ => bucketName 0 }
  bucket_canonical := fun _ => canonical_bucketName (by decide)
  encodable := fun _ => true
  encodable_directory := rfl
  encodable_bucket := fun _ _ => rfl

-- Work in a bucket whose name is not canonical.
def misplaced : Store
  | .directory => some (.members false {ascii "n"})
  | .bucket name => if name = ascii "n" then some (.members false {ascii "x"}) else none
  | .record segment =>
    if recordKey .sample (ascii "x") = .record segment then some (.record []) else none

theorem outstanding_misplaced : Outstanding .sample misplaced (ascii "x") :=
  ⟨by decide, rfl, [], rfl⟩

def moveMutation : Mutation Key Bytes Text :=
  memberMutation (ascii "n") (ascii "x") [⟨recordKey .sample (ascii "x"), some []⟩]
    (index.add Platform.sample.toPlatform (ascii "x"))

theorem list_misplaced (h : misplaced.listMembers k = .ok {m}) :
    Does .sample (.listMembers k) ⟨misplaced, []⟩ (.ok [m]) ⟨misplaced, []⟩ :=
  .listMembers rfl h (List.nodup_singleton m) fun _ => by simp

-- A pass comes to the step that moves it.
theorem moves_misplaced : ∃ c next, Since (Does .sample) (program .sample) 0 .reconcile
    (.init ⟨misplaced, []⟩) c ∧
    c.shared = ⟨misplaced, []⟩ ∧ c.programs 0 = some (.act (.apply moveMutation) next) := by
  have hcall : Since (Does .sample) (program .sample) 0 .reconcile
      (.init ⟨misplaced, []⟩) _ := .call
  have hlist := hcall.own rfl (list_misplaced (k := .directory) rfl)
  have hmembers := hlist.own rfl (list_misplaced (k := .bucket (ascii "n")) rfl)
  have hrecord := hmembers.own rfl (.get rfl)
  exact ⟨_, _, hrecord, rfl, rfl⟩

theorem repair_hides_no_work_misplaced :
    (∃ c next s', Since (Does .sample) (program .sample) 0 .reconcile (.init ⟨misplaced, []⟩) c ∧
      c.programs 0 = some (.act (.apply moveMutation) next) ∧
      Does .sample (.apply moveMutation) c.shared (.ok true) s' ∧ Placed .sample s'.store
        (ascii "x")) ∧
    Recovers .sample misplaced := by
  have hmain := repair_hides_no_work .sample
  refine ⟨?_, hmain.right misplaced (fun _ hk => absurd rfl hk) (by decide +kernel)⟩
  have ⟨c, next, hsince, hshared, hp⟩ := moves_misplaced
  have hmoved : ((misplaced.applyMutation moveMutation).toOption.join.map fun σ =>
      decide (ascii "x" ∈ σ.members false (.bucket (ascii "n")))) = some false := by decide +kernel
  match hm : misplaced.applyMutation moveMutation with
  | .error err => rw [hm] at hmoved; nomatch hmoved
  | .ok none => rw [hm] at hmoved; nomatch hmoved
  | .ok (some σ) =>
    rw [hm] at hmoved
    have hgone : ascii "x" ∉ σ.members false (.bucket (ascii "n")) :=
        of_decide_eq_false (Option.some.inj hmoved)
    have hdoes : Does .sample (.apply moveMutation) c.shared (.ok true) ⟨σ, []⟩ :=
      hshared ▸ .applied (fun _ _ => rfl) hm
    refine ⟨c, next, ⟨σ, []⟩, hsince, hp, hdoes, ?_⟩
    refine hmain.left 0 _ c _ next _ ⟨σ, []⟩ hsince hp (fun _ => nofun) hdoes (ascii "x") ?_ _
      _ rfl ?_ hgone
    case refine_1 => exact hshared ▸ outstanding_misplaced
    case refine_2 => exact hshared ▸ by decide +kernel

-- More names that are not canonical than a pass visits, with work in the last one.
def crowdName (n : Nat) : Text :=
  List.replicate (n + 3) 0

def crowd : List Text :=
  (List.range (maxInvalidBuckets + 1)).map crowdName

def crowded : Store
  | .directory => some (.members false crowd.toFinset)
  | .bucket name =>
    if name = crowdName maxInvalidBuckets then some (.members false {ascii "x"}) else none
  | .record segment =>
    if recordKey .sample (ascii "x") = .record segment then some (.record []) else none

theorem crowdName_injective : Function.Injective crowdName := by
  intro n m h
  have hlen := congrArg List.length h
  simp only [crowdName, List.length_replicate] at hlen
  omega

theorem not_canonical_crowdName (n : Nat) : ¬canonicalRecoveryBucket (crowdName n) := by
  intro hc
  have ⟨number, _, hname⟩ := List.mem_map.mp (canonical_iff.mp hc)
  have hlen := congrArg List.length hname
  simp [bucketName, crowdName] at hlen

theorem crowded_of_canonical (hc : canonicalRecoveryBucket bucket) :
    crowded (.bucket bucket) = none :=
  if_neg fun he => not_canonical_crowdName _ (he ▸ hc)

-- The pass has not come to the work yet.
structure Hidden (s : State) : Prop where
  bucket : ∀ b, s.store (.bucket b) = crowded (.bucket b)
  record : ∀ segment, s.store (.record segment) = crowded (.record segment)
  directory : s.store.OfKind false .directory

variable {s : State} {bucket : Text}

theorem may_act {α : Type} {Q : State → α → Prop} {f : Reply a → Call α} (r : Reply a) (s' : State)
    (hd : calm .sample a s r s') (h : (f r).May (calm .sample) Q s') :
    (act a >>= f).May (calm .sample) Q s :=
  ⟨r, s', hd, h⟩

theorem calm_empty (h : s.store (.bucket bucket) = none) :
    calm .sample (.listMembers (.bucket bucket)) s (.ok []) s := by
  have hlist : s.store.listMembers (.bucket bucket) = .ok ∅ := by
    unfold KV.Typed.Store.listMembers
    rw [h]
  exact ⟨.listMembers rfl hlist List.nodup_nil (by simp), fun ⟨_, _, he⟩ => nomatch he⟩

section

variable (hb : s.store (.bucket bucket) = none)
include hb

theorem may_repairBucket {canonical : Bool} {ready : Text → Call (List KV.Err)} :
    (repairBucket .sample bucket canonical known ready).May (calm .sample)
    (fun s' errs => s' = s ∧ errs = []) s := by
  refine may_act (.ok []) s (calm_empty hb) ?_
  have hnothing : enlist bucket canonical known [] = pure [] := by simp [enlist]
  dsimp only
  rw [hnothing]
  exact ⟨rfl, rfl⟩

theorem applyMutation_detach (hd : s.store.OfKind false .directory) :
    ∃ σ, s.store.applyMutation (detachMutation bucket) = .ok (some σ) := by
  have hbase : ∃ names, s.store.base ⟨⟨.directory, [bucket]⟩, .removeMembers⟩ = .ok names := by
    unfold KV.Typed.Store.base
    match hk : s.store .directory with
    | none => exact ⟨∅, rfl⟩
    | some v =>
      obtain ⟨names, rfl⟩ := hd v hk
      exact ⟨names, rfl⟩
  have ⟨names, hnames⟩ := hbase
  match hm : s.store.applyMutation (detachMutation bucket) with
  | .ok (some σ) => exact ⟨σ, rfl⟩
  | .ok none =>
    exact absurd hm (KV.Typed.Store.applyMutation_ne_none (by simp [hb]))
  | .error err =>
    simp [KV.Typed.Store.applyMutation, Mutation.validate, KV.Typed.validateGroups,
      Mutation.records, KV.Typed.Store.checkConditions, hb, KV.Typed.Store.applyGroups,
      KV.Typed.Store.applyGroup, hnames, KV.Typed.Store.putAll, KV.Typed.Store.deleteAll] at hm

theorem may_repairInvalidBucket (h : Hidden s) :
    (repairInvalidBucket .sample bucket).May (calm .sample) (fun s' _ => Hidden s') s := by
  refine (may_repairBucket hb).bind fun s' errs h' => ?_
  obtain ⟨rfl, rfl⟩ := h'
  obtain ⟨σ, hσ⟩ := applyMutation_detach hb h.directory
  refine may_act (.ok true) ⟨σ, s'.attempted⟩ ⟨.applied (fun _ _ => rfl) hσ, fun he =>
    by cases he.choose_spec⟩ ?_
  have hrest (k : Key) (hk : k ≠ .directory) : σ k = s'.store k := by
    refine KV.Typed.Store.applyMutation_of_untouched hσ (fun _ he => by cases he)
      List.not_mem_nil ?_
    simpa using hk.symm
  refine ⟨fun b => ?_, fun segment => ?_, ?_⟩
  case refine_1 => exact (hrest (.bucket b) (by rintro ⟨⟩)).trans (h.bucket b)
  case refine_2 => exact (hrest (.record segment) (by rintro ⟨⟩)).trans (h.record segment)
  case refine_3 =>
    refine KV.Typed.Store.ofKind_applyMutation hσ ⟨(fun _ he => by cases he), List.not_mem_nil,
      ?_⟩ h.directory
    simp [KV.Phase.ordered]

end

theorem may_repairInvalid (hc : ∀ b ∈ buckets, ¬canonicalRecoveryBucket b)
    (hb : ∀ b ∈ buckets.take room, crowded (.bucket b) = none) (h : Hidden s) :
    (repairInvalid .sample room buckets).May (calm .sample) (fun s' _ => Hidden s') s := by
  induction buckets generalizing room s
  case nil => unfold repairInvalid; exact h
  case cons bucket buckets hi =>
    obtain ⟨hbucket, hc⟩ := List.forall_mem_cons.mp hc
    unfold repairInvalid
    rw [if_neg hbucket]
    cases room
    case zero => exact h
    case succ =>
      obtain ⟨hnone, hb⟩ := List.forall_mem_cons.mp hb
      exact (may_repairInvalidBucket ((h.bucket bucket).trans hnone) h).bind fun s' _ h' =>
        (hi hc hb h').bind fun s'' _ h'' => h''

theorem may_repairBuckets (hc : ∀ b ∈ buckets, canonicalRecoveryBucket b) (h : Hidden s) :
    (repairBuckets .sample known buckets).May (calm .sample) (fun s' _ => Hidden s') s := by
  induction buckets generalizing s
  case nil => exact h
  case cons bucket buckets hi =>
    have ⟨hbucket, hc⟩ := List.forall_mem_cons.mp hc
    have hnone : s.store (.bucket bucket) = none :=
        (h.bucket bucket).trans (crowded_of_canonical hbucket)
    exact (may_repairBucket hnone).bind fun s' _ ⟨hs, _⟩ =>
      (hi hc (hs ▸ h)).bind fun s'' _ h'' => h''

theorem crowded_left_out : Encoded .sample crowded ∧ ¬Recovers .sample crowded := by
  refine ⟨fun _ hk => absurd rfl hk, Program.May.not_post ?_⟩
  have hnodup : crowd.Nodup := List.nodup_range.map crowdName_injective
  have hlist : calm .sample (.listMembers .directory) ⟨crowded, []⟩ (.ok crowd) ⟨crowded, []⟩ :=
    ⟨.listMembers rfl rfl hnodup fun _ => List.mem_toFinset.symm, fun ⟨_, _, he⟩ => nomatch he⟩
  have hstart : Hidden ⟨crowded, []⟩ :=
    ⟨fun _ => rfl, fun _ => rfl, fun v hv => ⟨_, (Option.some.inj hv).symm⟩⟩
  have hinvalid : ∀ b ∈ crowd, ¬canonicalRecoveryBucket b := by
    simpa [crowd] using fun n _ => not_canonical_crowdName n
  have hnone : ∀ b ∈ crowd.take maxInvalidBuckets, crowded (.bucket b) = none := by
    intro b hb
    rw [crowd, ← List.map_take, List.take_range] at hb
    have ⟨n, hn, hname⟩ := List.mem_map.mp hb
    refine if_neg fun he => ?_
    have := crowdName_injective (hname.trans he)
    simp at hn
    omega
  refine may_act _ _ hlist ((may_repairInvalid hinvalid hnone hstart).bind fun s r h => ?_)
  refine (may_repairBuckets (fun _ => canonical_iff.mpr) h).bind fun s' _ h' hrecovers => ?_
  have hdiscoverable : Discoverable .sample crowded (ascii "x") := by
    refine ⟨crowdName maxInvalidBuckets, ascii "x", .inr ?_, ?_, rfl⟩
    case refine_1 => exact List.mem_toFinset.mpr (List.mem_map_of_mem List.self_mem_range_succ)
    case refine_2 => simp [KV.Typed.Store.members, crowded]
  have houtstanding : Outstanding .sample s'.store (ascii "x") :=
    ⟨by decide, rfl, [], h'.record _⟩
  have hempty : s'.store (.bucket (bucketName 0)) = none :=
    (h'.bucket _).trans (crowded_of_canonical (canonical_bucketName (by decide)))
  have hplaced : ascii "x" ∈ s'.store.members false (.bucket (bucketName 0)) :=
    (hrecovers _ hdiscoverable houtstanding).left.bucket
  rw [members_of_none hempty] at hplaced
  exact absurd hplaced (Finset.notMem_empty _)

end Samples

end GizClaw.Social.Recovery

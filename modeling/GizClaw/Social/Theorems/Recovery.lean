import GizClaw.KV.Theorems.Typed
import GizClaw.Lib.Sequential
import GizClaw.Social.Recovery

-- The repair of a recovery index hides no work.

namespace GizClaw.Social.Recovery

open Interleaving (Program Exec Config Reachable Since)
open PendingDeletion (Text ascii)
open KV.Typed (Mutation Names)
open KV.Typed.Store (applyMutation_of_untouched)

attribute [local simp] Names memberMutation RecoveryIndex.add index directoryMutation detachMutation
  resetMutation Mutation.groups publishMutation completeMutation RecoveryIndex.remove

section Canonical

variable {bucket : Text}

theorem fromHexChar_lt (h : fromHexChar c = some n) : n < 16 := by
  simp only [fromHexChar] at h
  split at h
  case isTrue hc => cases h; simp only [Fin.le_def] at hc; omega
  case isFalse hc =>
    split at h
    case isTrue hc => cases h; simp only [Fin.le_def] at hc; omega
    case isFalse hc =>
      split at h
      case isTrue hc => cases h; simp only [Fin.le_def] at hc; omega
      case isFalse => nomatch h

theorem decodeString_bucketName (h : number < 256) :
    decodeString (bucketName number) = some [number] := by
  have hall : ∀ n : Fin 256, decodeString (bucketName n) = some [n.val] := by decide +kernel
  exact hall ⟨number, h⟩

theorem canonical_bucketName (h : number < 256) : canonicalRecoveryBucket (bucketName number) := by
  simp [canonicalRecoveryBucket, decodeString_bucketName h]

theorem canonical_iff : canonicalRecoveryBucket bucket ↔ bucket ∈ bucketNames := by
  refine ⟨fun h => ?_, fun h => ?_⟩
  case refine_1 =>
    unfold canonicalRecoveryBucket at h
    split at h
    case h_2 => nomatch h
    case h_1 number hd =>
      have hlt : number < 256 := by
        match bucket, hd with
        | a :: b :: t, hd =>
          simp only [decodeString, Option.bind_eq_bind, Option.bind_eq_some_iff, Option.pure_def,
            Option.some.injEq,
            List.cons.injEq] at hd
          obtain ⟨x, hx, y, hy, _, _, rfl, _⟩ := hd
          have := fromHexChar_lt hx
          have := fromHexChar_lt hy
          omega
      exact List.mem_map.mpr ⟨number, List.mem_range.mpr hlt, of_decide_eq_true h⟩
  case refine_2 =>
    have ⟨number, hlt, hname⟩ := List.mem_map.mp h
    exact hname ▸ canonical_bucketName (List.mem_range.mp hlt)

theorem nodup_bucketNames : bucketNames.Nodup := by
  refine List.Nodup.map_on (fun n hn m hm he => ?_) List.nodup_range
  have hdecode := decodeString_bucketName (List.mem_range.mp hn)
  rw [he, decodeString_bucketName (List.mem_range.mp hm)] at hdecode
  simpa using hdecode.symm

end Canonical

section Keeping

variable (P : Platform) (σ σ' : Store)

-- An identity whose record exists. Empty identities cannot name a record.
structure Outstanding (id : Text) : Prop where
  nonempty : id ≠ []
  trimmed : P.trimSpace id = id
  record : ∃ value, σ (recordKey P id) = some (.record value)

structure Placed (id : Text) : Prop where
  bucket : id ∈ σ.members false (.bucket (P.bucket id))
  directory : P.bucket id ∈ σ.members false .directory

-- Everything that repairs and workers do to the index is of this kind.
structure Keeps : Prop where
  directory : ∀ bucket, canonicalRecoveryBucket bucket → bucket ∈ σ.members false .directory →
    bucket ∈ σ'.members false .directory
  record : ∀ id, Outstanding P σ' id → Outstanding P σ id ∨ Placed P σ' id
  member : ∀ bucket member, Outstanding P σ' (P.trimSpace member) → member ∈ σ.members false
    (.bucket bucket) →
    member ∈ σ'.members false (.bucket bucket) ∨ Placed P σ' (P.trimSpace member)

-- The store holds nothing under keys that the encoder rejects.
def Encoded : Prop :=
  ∀ k, ¬P.encodable k → σ k = none

variable {P σ σ'} {σ₁ : Store} {id : Text} {m : Mutation Key Bytes Text}

theorem Keeps.placed (h : Keeps P σ σ') (ho : Outstanding P σ' id) (hp : Placed P σ id) :
    Placed P σ' id := by
  have ht := ho.trimmed
  have hm := h.member (P.bucket id) id (ht.symm ▸ ho) hp.bucket
  rw [ht] at hm
  exact hm.elim (⟨·, h.directory _ (P.bucket_canonical id) hp.directory⟩) fun hp => hp

theorem Keeps.refl : Keeps P σ σ where
  directory := fun _ _ h => h
  record := fun _ h => .inl h
  member := fun _ _ _ h => .inl h

theorem Keeps.trans (h₁ : Keeps P σ σ₁) (h₂ : Keeps P σ₁ σ') : Keeps P σ σ' where
  directory := fun b hc hb => h₂.directory b hc (h₁.directory b hc hb)
  record := fun id ho => by
    rcases h₂.record id ho with ho₁ | hp
    · exact (h₁.record id ho₁).imp_right (h₂.placed ho)
    · exact .inr hp
  member := fun b member ho hm => by
    rcases h₂.record _ ho with ho₁ | hp
    · rcases h₁.member b member ho₁ hm with hm₁ | hp₁
      · exact h₂.member b member ho hm₁
      · exact .inr (h₂.placed ho hp₁)
    · exact .inr hp

end Keeping

section Mutations

variable (P : Platform)

-- The mutations of a repair.
inductive Repair : Mutation Key Bytes Text → Prop where
  | enlist {bucket : Text} (h : canonicalRecoveryBucket bucket) : Repair (directoryMutation bucket)
  | detach {bucket : Text} (h : ¬canonicalRecoveryBucket bucket) : Repair (detachMutation bucket)
  | reset (value : Bytes) : Repair (resetMutation value)
  | blank (bucket : Text) {member : Text} (h : P.trimSpace member = []) :
    Repair (memberMutation bucket member [] [])
  | stale (bucket member : Text) :
    Repair (memberMutation bucket member [⟨recordKey P (P.trimSpace member), none⟩] [])
  | move {bucket member : Text} (value : Bytes)
    (h : ¬(member = P.trimSpace member ∧ P.bucket (P.trimSpace member) = bucket)) :
    Repair (memberMutation bucket member [⟨recordKey P (P.trimSpace member), some value⟩]
      (index.add P.toPlatform (P.trimSpace member)))

variable {P} {σ σ' : Store} {id bucket member : Text} {m : Mutation Key Bytes Text}
variable {conditions : List (KV.Typed.Condition Key Bytes)}
  {k : Key} {x : Text}

-- A mutation without ordered members, at a key that it does not use as a record.
structure Plain (m : Mutation Key Bytes Text) (k : Key) : Prop where
  added : m.addOrderedMembers = []
  removed : m.removeOrderedMembers = []
  entries : ∀ e ∈ m.entries, e.key ≠ k
  deletes : k ∉ m.deleteKeys

theorem Plain.mem (hp : Plain m k) (h : σ.applyMutation m = .ok (some σ')) :
    x ∈ σ'.members false k ↔
      (x ∈ σ.members false k ∨ Names m.addMembers k x) ∧ ¬Names m.removeMembers k x := by
  have hs : m.Spares false k := by
    refine ⟨hp.entries, hp.deletes, fun g hg _ => ?_⟩
    simp only [Mutation.groups, hp.added, hp.removed, List.map_nil, List.append_nil,
      List.mem_append,
      List.mem_map] at hg
    rcases hg with ⟨_, _, rfl⟩ | ⟨_, _, rfl⟩ <;> rfl
  rw [KV.Typed.Store.mem_applyMutation h hs, hp.added, hp.removed]
  simp

theorem mem_memberMutation
    (h : σ.applyMutation (memberMutation bucket member conditions additions) = .ok (some σ')) :
    x ∈ σ'.members false k ↔
      (x ∈ σ.members false k ∨ Names additions k x) ∧ ¬(k = .bucket bucket ∧ x = member) := by
  have hp : Plain (memberMutation bucket member conditions additions) k :=
    ⟨rfl, rfl, (fun _ he => nomatch he), List.not_mem_nil⟩
  rw [hp.mem h]
  simp [eq_comm]

theorem names_add : Names (index.add P.toPlatform id) k x ↔
    (k = .directory ∧ x = P.bucket id) ∨ (k = .bucket (P.bucket id) ∧ x = id) := by
  simp [eq_comm]

theorem recordKey_eq (h : P.trimSpace id = id) (h' : P.trimSpace id' = id')
    (he : recordKey P id = recordKey P id') : id = id' := by
  have hq : P.queryEscape (P.trimSpace id) = P.queryEscape (P.trimSpace id') := Key.record.inj he
  have := P.queryEscape_inj hq
  rwa [h, h'] at this

-- A mutation that leaves the records alone and removes nothing that counts.
theorem Keeps.of_records (hr : ∀ id, σ' (recordKey P id) = σ (recordKey P id))
    (hd : ∀ bucket, canonicalRecoveryBucket bucket → bucket ∈ σ.members false .directory →
      bucket ∈ σ'.members false .directory)
    (hm : ∀ bucket member, Outstanding P σ (P.trimSpace member) → member ∈ σ.members false
    (.bucket bucket) →
      member ∈ σ'.members false (.bucket bucket) ∨ Placed P σ' (P.trimSpace member)) :
        Keeps P σ σ' := by
  have ho (id : Text) (ho : Outstanding P σ' id) : Outstanding P σ id := by
    refine ⟨ho.nonempty, ho.trimmed, ?_⟩
    rw [← hr id]
    exact ho.record
  exact ⟨hd, fun id h => .inl (ho id h), fun b member h => hm b member (ho _ h)⟩

theorem record_of_repair (hm : Repair P m) (h : σ.applyMutation m = .ok (some σ'))
    (segment : Text) : σ' (.record segment) = σ (.record segment) := by
  cases hm <;> refine applyMutation_of_untouched h (fun _ he => nomatch he) ?_ ?_ <;>
    simp

theorem keeps_of_memberMutation
    (h : σ.applyMutation (memberMutation bucket member conditions additions) = .ok (some σ'))
    (hr : ∀ segment, σ' (.record segment) = σ (.record segment))
    (hp : Outstanding P σ (P.trimSpace member) → Placed P σ' (P.trimSpace member)) :
    Keeps P σ σ' := by
  refine .of_records (fun _ => hr _) (fun b _ hb => ?_) (fun b x ho hx => ?_)
  case refine_1 => exact (mem_memberMutation h).mpr ⟨.inl hb, fun hn => nomatch hn.left⟩
  case refine_2 =>
    by_cases hn : Key.bucket b = .bucket bucket ∧ x = member
    case neg => exact .inl ((mem_memberMutation h).mpr ⟨.inl hx, hn⟩)
    case pos => exact .inr (hn.right ▸ hp (hn.right ▸ ho))

theorem placed_of_move
    (hn : ¬(member = P.trimSpace member ∧ P.bucket (P.trimSpace member) = bucket))
    (h : σ.applyMutation
    (memberMutation bucket member [⟨recordKey P (P.trimSpace member), some value⟩]
      (index.add P.toPlatform (P.trimSpace member))) = .ok (some σ')) : Placed P σ'
      (P.trimSpace member) := by
  refine ⟨?_, ?_⟩
  case refine_1 =>
    refine (mem_memberMutation h).mpr ⟨.inr (names_add.mpr (.inr ⟨rfl, rfl⟩)), fun hx => hn ?_⟩
    exact ⟨hx.right.symm, Key.bucket.inj hx.left⟩
  case refine_2 =>
    exact (mem_memberMutation h).mpr ⟨.inr (names_add.mpr (.inl ⟨rfl, rfl⟩)), fun hx =>
      nomatch hx.left⟩

theorem keeps_of_repair (hm : Repair P m) (h : σ.applyMutation m = .ok (some σ')) :
    Keeps P σ σ' := by
  have hr := record_of_repair hm h
  have hconditions := (KV.Typed.Store.applyMutation_eq_some h).left
  cases hm
  case enlist b hb =>
    have hmem (k : Key) (x : Text) (hx : x ∈ σ.members false k) : x ∈ σ'.members false k := by
      refine ((Plain.mem ⟨rfl, rfl, ?_, List.not_mem_nil⟩ h).mpr ⟨.inl hx, ?_⟩)
      case refine_1 => exact fun _ he => by cases he
      case refine_2 => simp
    exact .of_records (fun _ => hr _) (fun b _ hb => hmem _ b hb)
      (fun b x _ hx => .inl (hmem _ x hx))
  case detach b hb =>
    have hmem (k : Key) (x : Text) (hx : x ∈ σ.members false k) (hn : ¬(k = .directory ∧ x = b)) :
        x ∈ σ'.members false k := by
      refine ((Plain.mem ⟨rfl, rfl, ?_, List.not_mem_nil⟩ h).mpr ⟨.inl hx, ?_⟩)
      case refine_1 => exact fun _ he => by cases he
      case refine_2 => simpa [eq_comm] using hn
    refine .of_records (fun _ => hr _) (fun b' hc hb' => hmem _ b' hb' fun hn =>
      hb (hn.right ▸ hc)) ?_
    exact fun b x _ hx => .inl (hmem _ x hx fun hn => by cases hn.left)
  case reset value =>
    have hd := hconditions ⟨.directory, some value⟩ (List.mem_singleton_self _)
    refine .of_records (fun _ => hr _) (fun b _ hb => ?_) (fun b x _ hx => .inl ?_)
    case refine_1 => simp [KV.Typed.Store.members, hd] at hb
    case refine_2 =>
      refine ((Plain.mem ⟨rfl, rfl, ?_, ?_⟩ h).mpr ⟨.inl hx, ?_⟩)
      case refine_1 => exact fun _ he => by cases he
      case refine_2 => simp
      case refine_3 => simp
  case blank hx => exact keeps_of_memberMutation h hr fun ho => absurd hx ho.nonempty
  case stale x =>
    have hnone := hconditions ⟨recordKey P (P.trimSpace x), none⟩ (List.mem_singleton_self _)
    refine keeps_of_memberMutation h hr fun ho => ?_
    obtain ⟨value, hvalue⟩ := ho.record
    cases hnone.symm.trans hvalue
  case move hn => exact keeps_of_memberMutation h hr fun _ => placed_of_move hn h

-- Another identity has another record.
theorem Outstanding.of_other (ho : Outstanding P σ' id) (hid : P.trimSpace id' = id')
    (hne : id ≠ id') (hr : ∀ segment, .record segment ≠ recordKey P id' → σ' (.record segment) =
    σ (.record segment)) : Outstanding P σ id := by
  refine ⟨ho.nonempty, ho.trimmed, ?_⟩
  have hkey : recordKey P id ≠ recordKey P id' := fun he => hne (recordKey_eq ho.trimmed hid he)
  have ⟨value, hvalue⟩ := ho.record
  exact ⟨value, (hr _ hkey).symm.trans hvalue⟩

theorem keeps_of_publish (hid : P.trimSpace id = id)
    (h : σ.applyMutation (publishMutation P id value conditions) =
    .ok (some σ')) : Keeps P σ σ' := by
  have hmem (k : Key) (x : Text) (hk : recordKey P id ≠ k) : x ∈ σ'.members false k ↔
      x ∈ σ.members false k ∨ Names (index.add P.toPlatform id) k x := by
    rw [Plain.mem ⟨rfl, rfl, by simpa using hk, List.not_mem_nil⟩ h]
    simp
  have hp : Placed P σ' id :=
    ⟨(hmem (.bucket _) _ (by rintro ⟨⟩)).mpr (.inr (names_add.mpr (.inr ⟨rfl, rfl⟩))),
      (hmem .directory _ (by rintro ⟨⟩)).mpr (.inr (names_add.mpr (.inl ⟨rfl, rfl⟩)))⟩
  refine ⟨fun b _ hb => (hmem .directory b (by rintro ⟨⟩)).mpr (.inl hb), fun id' ho => ?_,
    fun b x _ hx => .inl ((hmem (.bucket b) x (by rintro ⟨⟩)).mpr (.inl hx))⟩
  by_cases he : id' = id
  case pos => exact .inr (he ▸ hp)
  case neg =>
    refine .inl (ho.of_other hid he fun segment hk =>
      applyMutation_of_untouched h ?_ ?_ ?_)
    case refine_1 => simpa using hk.symm
    case refine_2 => exact List.not_mem_nil
    case refine_3 => simp

theorem keeps_of_complete (hid : P.trimSpace id = id)
    (h : σ.applyMutation (completeMutation P id conditions) = .ok (some σ')) : Keeps P σ σ' := by
  have hmem (k : Key) (x : Text) (hk : k ≠ recordKey P id) : x ∈ σ'.members false k ↔
      x ∈ σ.members false k ∧ ¬(k = .bucket (P.bucket id) ∧ x = id) := by
    have hp : Plain (completeMutation P id conditions) k :=
      ⟨rfl, rfl, (fun _ he => by cases he), by simpa using hk⟩
    rw [hp.mem h]
    simp [eq_comm]
  have hgone : ¬Outstanding P σ' id := by
    intro ho
    obtain ⟨value, hvalue⟩ := ho.record
    have hg : ∀ g ∈ (completeMutation P id conditions).groups, g.key ≠ recordKey P id := by
      simp [recordKey]
    have hd : recordKey P id ∈ (completeMutation P id conditions).deleteKeys :=
        List.mem_singleton_self _
    rw [KV.Typed.Store.lookup_applyMutation h hg, if_pos hd] at hvalue
    cases hvalue
  refine ⟨fun b _ hb => (hmem .directory b (by rintro ⟨⟩)).mpr ⟨hb, (fun h => by cases h.left)⟩,
    fun id' ho => .inl ?_,
    fun b x ho hx => .inl ((hmem (.bucket b) x (by rintro ⟨⟩)).mpr ⟨hx, fun hn => hgone ?_⟩)⟩
  case refine_1 =>
    have he : id' ≠ id := fun he => hgone (he ▸ ho)
    refine ho.of_other hid he fun segment hk => applyMutation_of_untouched h ?_ ?_ ?_
    case refine_1 => exact fun _ he => by cases he
    case refine_2 => simpa using hk
    case refine_3 => simp
  case refine_2 =>
    rw [hn.right, hid] at ho
    exact ho

theorem keeps_of_work (hw : Work P m) (h : σ.applyMutation m = .ok (some σ')) : Keeps P σ σ' := by
  cases hw
  case publish hid => exact keeps_of_publish hid h
  case complete hid => exact keeps_of_complete hid h

theorem Encoded.apply (hs : Encoded P σ) (he : encodes P m)
    (h : σ.applyMutation m = .ok (some σ')) : Encoded P σ' := by
  intro k hk
  have hno (l : List Key) (hl : ∀ x ∈ l, x ∈ m.records ++ m.groups.map (·.key)) : k ∉ l :=
    fun hn => hk (he k (hl k hn))
  rw [applyMutation_of_untouched h, hs k hk]
  case he =>
    have hkeys :=
        hno (m.entries.map (·.key)) fun _ h => by simp only [Mutation.records, List.mem_append, h,
        true_or, or_true]
    exact fun e hm hn => hkeys (hn ▸ List.mem_map_of_mem hm)
  case hd =>
    exact hno m.deleteKeys fun _ h => by simp only [Mutation.records, List.mem_append, h,
    true_or, or_true]
  case hg =>
    have hkeys := hno (m.groups.map (·.key)) fun _ h => List.mem_append_right _ h
    exact fun g hm hn => hkeys (hn ▸ List.mem_map_of_mem hm)

theorem keeps_of_works (hw : Works P σ σ') : Keeps P σ σ' := by
  induction hw
  case refl => exact .refl
  case work hw _ hm hi => exact hi.trans (keeps_of_work hw hm)

theorem Encoded.works (hs : Encoded P σ) (hw : Works P σ σ') : Encoded P σ' := by
  induction hw
  case refl => exact hs
  case work he hm hi => exact hi.apply he hm

end Mutations

section Steps

variable {P : Platform} {s s' : State} {bucket member : Text}

-- The actions that a repair takes by itself, apart from the attempts.
def Repairs (P : Platform) : Act → Prop
  | .apply m => Repair P m
  | _ => True

theorem all_act {α : Type} {f : Reply a → Call α} (h : Q a) (hf : ∀ r, (f r).All Q) :
    (act a >>= f).All Q :=
  ⟨h, hf⟩

theorem all_relist : relist.All (Repairs P) := by
  refine all_act trivial fun r => ?_
  cases r <;> trivial

theorem all_repairDirectoryType : repairDirectoryType.All (Repairs P) := by
  refine all_act trivial fun r => ?_
  match r with
  | .ok value =>
    refine all_act (.reset value) fun r => ?_
    match r with
    | .ok true
      => trivial
    | .ok false
      => exact all_relist
    | .error .wrongType
      => exact all_relist
    | .error .notFound | .error .invalidDeadline | .error .memberLimit | .error .migrationInProgress
    | .error .migrationConflict | .error .migrationUnsupported | .error (.text _)
      => trivial
  | .error .notFound => exact all_relist
  | .error .wrongType => exact all_relist
  | .error .invalidDeadline | .error .memberLimit | .error .migrationInProgress | .error
    .migrationConflict
  | .error .migrationUnsupported | .error (.text _) => trivial

theorem all_repairMember : (repairMember P bucket member).All (Repairs P) := by
  dsimp only [repairMember]
  split
  case isTrue hid =>
    refine all_act (.blank bucket hid) fun r => ?_
    cases r <;> trivial
  case isFalse =>
    refine all_act trivial fun r => ?_
    split
    case h_1 =>
      refine all_act (.stale bucket member) fun r => ?_
      cases r <;> trivial
    case h_2 => trivial
    case h_3 value =>
      split
      case isTrue => trivial
      case isFalse hn =>
        refine all_act (.move value hn) fun r => ?_
        cases r <;> trivial

theorem all_visitMembers (hready : ∀ id, (ready id).All (Repairs P))
    (members : List Text) : (visitMembers P bucket ready members).All (Repairs P) := by
  induction members
  case nil => trivial
  case cons member members hi =>
    refine Program.All.bind all_repairMember fun r => ?_
    have hmore (errs : List KV.Err) :
        (visitMembers P bucket ready members >>= fun more => pure (errs ++ more)).All (Repairs P) :=
      Program.All.bind hi fun _ => trivial
    match r with
    | .error err => exact hmore [err]
    | .ok true => exact Program.All.bind (hready member) hmore
    | .ok false => exact hmore []

theorem all_enlist {canonical : Bool} (hc : canonical → canonicalRecoveryBucket bucket) :
    (enlist bucket canonical known ids).All (Repairs P) := by
  unfold enlist
  split
  case isFalse => trivial
  case isTrue hif =>
    simp only [Bool.and_eq_true] at hif
    refine all_act (.enlist (hc hif.left.left)) fun r => ?_
    cases r <;> trivial

theorem all_repairBucket {canonical : Bool} {ready : Text → Call (List KV.Err)}
    (hc : canonical → canonicalRecoveryBucket bucket) (hready : ∀ id, (ready id).All (Repairs P)) :
    (repairBucket P bucket canonical known ready).All (Repairs P) := by
  refine all_act trivial fun r => ?_
  match r with
  | .error err => trivial
  | .ok ids =>
    exact Program.All.bind (all_enlist hc) fun _ =>
      Program.All.bind (all_visitMembers hready _) fun _ => trivial

theorem all_repairInvalidBucket (hc : ¬canonicalRecoveryBucket bucket) :
    (repairInvalidBucket P bucket).All (Repairs P) := by
  refine Program.All.bind (all_repairBucket nofun fun _ => trivial) fun errs => ?_
  match errs with
  | _ :: _ => trivial
  | [] =>
    refine all_act (.detach hc) fun r => ?_
    cases r <;> trivial

theorem all_repairInvalid (room : Nat) (buckets : List Text) :
    (repairInvalid P room buckets).All (Repairs P) := by
  induction buckets generalizing room
  case nil => unfold repairInvalid; trivial
  case cons hi =>
    unfold repairInvalid
    split
    case isTrue => exact Program.All.bind (hi room) fun _ => trivial
    case isFalse hc =>
      match room with
      | 0 => trivial
      | room + 1 => exact Program.All.bind (all_repairInvalidBucket hc) fun _ =>
          Program.All.bind (hi room) fun _ => trivial

theorem all_attempt (id : Text) : (attempt id).All (Repairs P) := by
  refine all_act trivial fun r => ?_
  cases r <;> trivial

theorem all_repairBuckets {known buckets : List Text}
    (hc : ∀ b ∈ buckets, canonicalRecoveryBucket b) :
    (repairBuckets P known buckets).All (Repairs P) := by
  induction buckets
  case nil => trivial
  case cons hi =>
    have ⟨hb, hc⟩ := List.forall_mem_cons.mp hc
    exact Program.All.bind (all_repairBucket (fun _ => hb) all_attempt) fun _ =>
      Program.All.bind (hi hc) fun _ => trivial

theorem all_repairListed (buckets : List Text) : (repairListed P buckets).All (Repairs P) :=
  Program.All.bind (all_repairInvalid maxInvalidBuckets buckets) fun _ =>
    Program.All.bind (all_repairBuckets fun _ => canonical_iff.mpr) fun _ => trivial

theorem all_reconcile : (reconcile P).All (Repairs P) := by
  refine all_act trivial fun r => ?_
  split
  case h_2 => trivial
  case h_3 => exact all_repairListed _
  case h_1 =>
    refine Program.All.bind all_repairDirectoryType fun r => ?_
    have hmore (errs : List KV.Err) :
        (repairListed P [] >>= fun more => pure (errs ++ more)).All (Repairs P) :=
      Program.All.bind (all_repairListed []) fun _ => trivial
    match r with
    | .error err => exact hmore [err]
    | .ok _ => exact hmore []

-- Whatever an action meets and however it ends.
theorem keeps_of_does (ha : Repairs P a) (h : Does P a s r s') : Keeps P s.store s'.store := by
  cases h
  case applied h | replyLost h => exact keeps_of_repair ha h
  case attempt h => exact keeps_of_works h
  all_goals exact .refl

end Steps

end GizClaw.Social.Recovery

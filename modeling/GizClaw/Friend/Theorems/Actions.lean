import GizClaw.Friend.Theorems.Publication

-- The actions of the service, and what the ones on Workspaces and names do to the invariant.

namespace GizClaw.Friend

open Interleaving
open PendingDeletion (Text Time)
open Social hiding Call
open Function (update_self update update_of_ne)

section Clear

-- The Workspace that a record keeps from being forgotten.
def Value.keeps : Value → Option Text
  | workspaceBinding b => some b.workspaceName
  | retirementIntent i => some i.workspaceName
  | _ => none

def Key.isWorkspaceBinding : Key → Bool
  | workspaceBinding _ => true
  | _ => false

variable (s : State)

def kept (k : Key) : Option Text :=
  match s.store k with
  | some (.record v) => v.keeps
  | _ => none

-- What is under the key keeps no Workspace that is there, or something else keeps it from now on.
def Clears (m : Mutation) (k : Key) : Prop :=
  ∀ w ∈ kept s k, s.workspaces w ≠ none → ∃ e ∈ m.entries, e.value.keeps = some w

def ClearMutation (m : Mutation) : Prop :=
  (∀ e ∈ m.entries, Clears s m e.key) ∧ ∀ k ∈ m.deleteKeys, k.isWorkspaceBinding → Clears s m k

-- A Workspace is not created for an incarnation that has been decided.
def ClearWorkspace (P : Platform) (w : Workspace) : Prop :=
  s.workspaces w.name = none → ∀ t ∈ s.names w.name, ¬Decided P s t.fst (P.trimSpace t.snd)

instance (m : Mutation) (k : Key) : Decidable (Clears s m k) :=
  inferInstanceAs (Decidable (∀ w ∈ kept s k, _))

instance (m : Mutation) : Decidable (ClearMutation s m) :=
  inferInstanceAs (Decidable (_ ∧ _))

instance (P : Platform) (w : Workspace) : Decidable (ClearWorkspace s P w) :=
  inferInstanceAs (Decidable (_ → ∀ t ∈ s.names w.name, ¬_ ≠ none))

end Clear

-- If `G` holds, no action gets in the way of another lifecycle of the same peers.
abbrev Acts (P : Platform) (G : Prop) : Exec (Act Key Value) Reply State :=
  Guarded P (fun s m => G → ClearMutation s m) (fun s w => G → ClearWorkspace s P w)

variable {P : Platform} {G : Prop} {s s' : State}

section Clear

variable {m : Mutation} {r w : Text} (h : ClearMutation s m)

include h

theorem ClearMutation.clearsRetirement (hkey : ∃ e ∈ m.entries, e.key = retirementIntentKey P r)
    (hw : ∀ e ∈ m.entries, ∀ w', e.value.keeps = some w' → w' = w) : ClearsRetirement P s r w := by
  obtain ⟨e, he, hk⟩ := hkey
  intro j hj
  by_cases hlive : s.workspaces j.workspaceName = none
  case pos => exact .inr hlive
  case neg =>
    obtain ⟨e', he', hv⟩ := h.left e he j.workspaceName (by rw [hk, kept, hj]; rfl) hlive
    exact .inl (hw e' he' _ hv)

theorem ClearMutation.clearsBinding (hkey : (∃ e ∈ m.entries, e.key = workspaceBindingKey P r) ∨
      workspaceBindingKey P r ∈ m.deleteKeys)
    (hw : ∀ e ∈ m.entries, ∀ w', e.value.keeps = some w' → w' = w) : ClearsBinding P s r w := by
  have hc : Clears s m (workspaceBindingKey P r) := by
    rcases hkey with ⟨e, he, hk⟩ | hk
    case inl => exact hk ▸ h.left e he
    case inr => exact h.right _ hk rfl
  intro b hb
  by_cases hlive : s.workspaces b.workspaceName = none
  case pos => exact .inr hlive
  case neg =>
    obtain ⟨e', he', hv⟩ := hc b.workspaceName (by rw [kept, hb]; rfl) hlive
    exact .inl (hw e' he' _ hv)

end Clear

section Names

theorem Quiet.of_store (hs : s'.store = s.store)
    (hn : ∀ w t, s.names w = some t → s'.names w = some t) (hr : s.revisions ⊆ s'.revisions) :
    Quiet s s' :=
  ⟨fun _ _ => by rw [hs], hn, fun _ _ _ hc => by rw [hs]; exact hc, hr⟩

-- A record names the same Workspaces as long as it is there.
theorem Named.of_store (hs : s'.store = s.store) (h : Named P s w) : Named P s' w := by
  cases h
  case creation j hw hj hd => exact .creation j hw (by rw [hs]; exact hj) (by rwa [Decided, hs])
  case binding r b hw hb => exact .binding r b hw (by rw [hs]; exact hb)
  case retirement r j hw hj => exact .retirement r j hw (by rw [hs]; exact hj)

theorem mint_keeps (scope id : Text) (hi : Inv P G s) (hfree : s.names name = none) :
    Inv P G (s.mint scope name id) ∧ Next P G s (s.mint scope name id) := by
  have hnames : ∀ w t, s.names w = some t → (s.mint scope name id).names w = some t := by
    intro w t hw
    refine (update_of_ne ?_ _ _).trans hw
    rintro rfl
    rw [hfree] at hw
    cases hw
  have hquiet : Quiet s (s.mint scope name id) := .of_store rfl hnames (Finset.Subset.refl _)
  refine ⟨⟨hquiet.friendsInv hi.friends, ?_, hi.workspaces, ?_⟩, hquiet.next (fun _ h => h) ?_⟩
  · exact hi.records.grow hquiet.names hquiet.decisions (fun _ _ _ => .inl) (fun _ _ => .inl)
      (fun _ _ => .inl) hi.records.indexed
  · exact fun hG w hw => Named.of_store (s := s) rfl (hi.named hG w hw)
  · exact fun _ _ _ _ _ _ hw => hw

theorem mint_minted {r id : Text} :
    Minted P (s.mint r (directWorkspaceIncarnationName P r id) id) r (P.trimSpace id)
      (directWorkspaceIncarnationName P r (P.trimSpace id)) := by
  have hw : directWorkspaceIncarnationName P r (P.trimSpace id) =
      directWorkspaceIncarnationName P r id := by
    unfold directWorkspaceIncarnationName
    rw [P.trimSpace_idem]
  refine ⟨rfl, id, ?_, rfl⟩
  rw [hw]
  exact update_self ..

end Names

section Workspaces

variable {w : Text}

theorem setWorkspaces_keeps (hi : Inv P G s) (hid : ∀ w id, f w = some id → id = w)
    (hnew : G → ∀ w, f w ≠ none → s.workspaces w ≠ none ∨
      (Named P s w ∧ ∀ r inc, Minted P s r inc w → ¬Decided P s r inc)) :
    Inv P G (s.setWorkspaces f) ∧ Next P G s (s.setWorkspaces f) := by
  have hquiet : Quiet s (s.setWorkspaces f) :=
    .of_store rfl (fun _ _ h => h) (Finset.Subset.refl _)
  refine ⟨⟨hquiet.friendsInv hi.friends, ?_, hid, ?_⟩, hquiet.next (fun _ h => h) ?_⟩
  · exact hi.records.grow hquiet.names hquiet.decisions (fun _ _ _ => .inl) (fun _ _ => .inl)
      (fun _ _ => .inl) hi.records.indexed
  · intro hG w hw
    refine Named.of_store (s := s) rfl ?_
    rcases hnew hG w hw with hold | ⟨hnamed, -⟩
    case inl => exact hi.named hG w hold
    case inr => exact hnamed
  · intro hG r inc w hm hd hw
    by_contra hw'
    rcases hnew hG w hw' with hold | ⟨-, hfresh⟩
    case inl => exact hold hw
    case inr => exact hfresh r inc hm hd

theorem delete_workspaces : (s.delete w).snd.workspaces w = none := by
  unfold State.delete
  split
  case h_1 => exact update_self ..
  case h_2 hw => exact hw

theorem delete_keeps (hi : Inv P G s) : Inv P G (s.delete w).snd ∧ Next P G s (s.delete w).snd := by
  unfold State.delete
  split
  case h_2 => exact ⟨hi, .refl s⟩
  case h_1 id _ =>
    have hsub (v : Text) (hv : update s.workspaces w none v ≠ none) :
        update s.workspaces w none v = s.workspaces v := by
      refine update_of_ne ?_ _ _
      rintro rfl
      exact hv (update_self ..)
    refine setWorkspaces_keeps hi (fun v id hv => ?_) fun _ v hv => .inl ?_
    · exact hi.workspaces v id ((hsub v (by rw [hv]; simp)).symm.trans hv)
    · exact hsub v hv ▸ hv

theorem retire_workspaces (hi : Inv P G s) : (s.retire w).workspaces w = none := by
  change (if s.workspaces w = some w then none else s.workspaces w) = none
  split
  case isTrue => rfl
  case isFalse hw =>
    by_contra hne
    have ⟨id, hid⟩ := Option.ne_none_iff_exists'.mp hne
    exact hw (by rw [hid, hi.workspaces w id hid])

theorem retireByID_keeps (id : Text) (hi : Inv P G s) :
    Inv P G (s.retire id) ∧ Next P G s (s.retire id) := by
  refine setWorkspaces_keeps hi (fun v i hv => ?_) fun _ v hv => .inl ?_
  · have ⟨_, hv⟩ := Option.ite_none_left_eq_some.mp hv
    exact hi.workspaces v i hv
  · split at hv
    case isTrue => exact absurd rfl hv
    case isFalse => exact hv

-- The Workspace of an incarnation whose intent was there is created before the decision only.
theorem create_keeps (hi : Inv P G s) (hg : Genuine P s i) (hint : HasIntent P s i)
    (hc : G → ClearWorkspace s P ⟨i.workspace, i.workspace⟩) :
    Inv P G (s.create ⟨i.workspace, i.workspace⟩).snd ∧
    Next P G s (s.create ⟨i.workspace, i.workspace⟩).snd := by
  unfold State.create
  split
  case h_1 => exact ⟨hi, .refl s⟩
  case h_2 hnone =>
    have hne (v : Text) (hv : v ≠ i.workspace) : update s.workspaces i.workspace
        (some i.workspace) v = s.workspaces v :=
      update_of_ne hv _ _
    refine setWorkspaces_keeps hi (fun v id hv => ?_) fun hG v hv => ?_
    · by_cases he : v = i.workspace
      case pos => subst he; rw [update_self] at hv; cases hv; rfl
      case neg => rw [hne v he] at hv; exact hi.workspaces v id hv
    · by_cases he : v = i.workspace
      case neg => rw [hne v he] at hv; exact .inl hv
      case pos =>
        subst he
        have hundecided : ¬Decided P s i.relationID i.incarnationID := by
          obtain ⟨-, id, hid, ht⟩ := hg.minted
          have hd := hc hG hnone _ hid
          rwa [ht] at hd
        refine .inr ⟨.creation i rfl (hint.resolve_right hundecided) hundecided, ?_⟩
        intro r inc hm
        obtain ⟨rfl, rfl⟩ := hg.minted.eq hm
        exact hundecided

theorem create_fst (hi : Inv P G s) :
    (s.create ⟨w, w⟩).fst.name = w ∧ (s.create ⟨w, w⟩).fst.id = w := by
  unfold State.create
  split
  case h_1 id hid => exact ⟨rfl, hi.workspaces w id hid⟩
  case h_2 => exact ⟨rfl, rfl⟩

end Workspaces

end GizClaw.Friend

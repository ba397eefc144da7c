import GizClaw.Friend.Theorems.Relations

-- Whether a Workspace may be forgotten. Intents are kept under the relation, so that those of one
-- lifecycle of two peers may take the place of those of another.

namespace GizClaw.Friend

open Interleaving
open PendingDeletion (Text ascii)
open Social hiding Call
open Sample (platform creation)

section Statement

-- The Workspace that a record is about.
def Value.workspaceName? : Value → Option Text
  | creationIntent i => some i.workspace
  | workspaceBinding b => some b.workspaceName
  | retirementIntent i => some i.workspaceName
  | _ => none

def recorded (s : State) (k : Key) : Option Text :=
  match s.store k with
  | some (.record v) => v.workspaceName?
  | _ => none

variable (P : Platform) (s : State)

def NamedBy (r w : Text) : Prop :=
  recorded s (workspaceBindingKey P r) = some w ∨ recorded s (creationIntentKey P r) = some w ∨
  recorded s (retirementIntentKey P r) = some w

instance (r w : Text) : Decidable (NamedBy P s r w) :=
  inferInstanceAs (Decidable (_ ∨ _))

-- Every Workspace that is there is named by a record of the relation that it was made for.
def NoOrphans : Prop :=
  ∀ w, s.workspaces w ≠ none → ∃ r id, s.names w = some (r, id) ∧ NamedBy P s r w

end Statement

variable {P : Platform} {G : Prop} {s : State} {c : System} {w : Text}

theorem Named.namedBy (hi : Inv P G s) (h : Named P s w) :
    ∃ r id, s.names w = some (r, id) ∧ NamedBy P s r w := by
  cases h
  case creation hw h hd =>
    obtain ⟨i', hi', -, hg⟩ := hi.records.intents _ _ h
    cases hi'
    obtain ⟨-, id, hid, -⟩ := hg.minted
    exact ⟨_, id, hw ▸ hid, .inr (.inl (by rw [recorded, h, ← hw]; rfl))⟩
  case binding hw h =>
    obtain ⟨p, hp⟩ := hi.friends.bindings _ (by rw [← workspaceBindingKey, h]; simp)
    rw [workspaceBindingKey, hp] at h
    rcases hi.friends.whole p with hno | ⟨inc, w', hm, -, ha⟩
    case inl =>
      have hb := hno.binding
      rw [workspaceBindingKey, h] at hb
      cases hb
    case inr =>
      obtain ⟨b', hb', -, -, rfl⟩ := ha.binding
      rw [workspaceBindingKey, h] at hb'
      cases hb'
      obtain ⟨-, id, hid, -⟩ := hm
      refine ⟨_, id, hw ▸ hid, .inl ?_⟩
      rw [recorded, workspaceBindingKey, h, ← hw]
      rfl
  case retirement hw h =>
    obtain ⟨i', hi', hx, hs⟩ := hi.records.retirements _ _ h
    cases hi'
    obtain ⟨inc, ⟨-, id, hid, -⟩, -⟩ := hs.decided
    refine ⟨_, id, hw ▸ hid, .inr (.inr ?_)⟩
    rw [recorded, retirementIntentKey, ← hx]
    exact hw ▸ (by rw [← retirementIntentKey, h]; rfl)

-- As long as every action is clear, no Workspace is forgotten, and recovery finds the intents.
theorem no_orphans_of_clear (h : GuardedReachable P True c) : NoOrphans P c.shared ∧
    ∀ (work : Work) (p : Pair P), c.shared.store (work.recordKey P p.relation) ≠ none →
      P.bucket p.relation ∈ c.shared.store.members false (.recoveryDirectory work) ∧
      p.relation ∈ c.shared.store.members false (.recoveryBucket work (P.bucket p.relation)) := by
  have hi := (sound h).inv
  exact ⟨fun w hw => (hi.named trivial w hw).namedBy hi, hi.records.indexed⟩

section Sample

theorem GuardedReachable.of_run {β : Type} {b : β} (f : System → β) (t : List (Turn Op Choice))
    (h : ((Config.init .init : System).run (performGuarded P (fun s m => True → ClearMutation s m)
      fun s w => True → ClearWorkspace s P w) (fun op : Op => (op.call P).run) t).map f = some b) :
    ∃ c, GuardedReachable P True c ∧ f c = b :=
  Interleaving.Reachable.exists_run guarded_of_perform h

-- The first name that the sample peers get a Workspace of.
def Sample.workspace : Text :=
  directWorkspaceIncarnationName platform Sample.pair.relation (ascii "x")

theorem no_orphans_of_clear_sample : ∃ c, GuardedReachable platform True c ∧
    c.shared.workspaces Sample.workspace ≠ none ∧ NoOrphans platform c.shared := by
  obtain ⟨c, hc, hw⟩ := GuardedReachable.of_run (P := platform) (b := some Sample.workspace)
    (fun c => c.shared.workspaces Sample.workspace) (creation 0 (ascii "x"))
    (by decide +kernel)
  exact ⟨c, hc, by rw [hw]; simp, (no_orphans_of_clear hc).left⟩

-- A call that deletes the friendship, up to the mutation that records the retirement.
def Sample.deletion (i : Nat) : List (Turn Op Choice) :=
  .call i (.deleteFriend Sample.pair.fst Sample.pair.snd) :: List.replicate 7 (.act i Sample.choice)

-- Twice the peers become friends and part, and both times the Server stops before the Workspace is
-- retired. The second retirement is recorded in place of the first.
theorem orphan_reachable :
    ∃ c, Reachable platform c ∧ ¬NoOrphans platform c.shared := by
  obtain ⟨c, hc, h⟩ := Reachable.of_run (P := platform)
    (b := (some Sample.workspace, some (Sample.pair.relation, ascii "x"), false))
    (fun c => (c.shared.workspaces Sample.workspace, c.shared.names Sample.workspace,
      decide (NamedBy platform c.shared Sample.pair.relation Sample.workspace)))
    (creation 0 (ascii "x") ++ Sample.deletion 1 ++
      (creation 2 (ascii "y") ++ Sample.deletion 3))
    (by decide +kernel)
  refine ⟨c, hc, fun hno => ?_⟩
  simp only [Prod.mk.injEq, decide_eq_false_iff_not] at h
  obtain ⟨hw, hname, hrecord⟩ := h
  obtain ⟨r, id, hr, hn⟩ := hno Sample.workspace (by rw [hw]; simp)
  rw [hname] at hr
  cases hr
  exact hrecord hn

end Sample

end GizClaw.Friend

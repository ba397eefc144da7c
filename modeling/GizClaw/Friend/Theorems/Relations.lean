import GizClaw.Friend.Theorems.Calls
import GizClaw.Social.Sample

-- What every peer can rely on: relations are whole, incarnations are decided once, and nobody has
-- too many friends.

namespace GizClaw.Friend

open Interleaving
open PendingDeletion (Text ascii)
open Social hiding Call
open Sample (platform)

variable {P : Platform} {c c' : System}

theorem inv_of_reachable (h : Reachable P c) : Inv P False c.shared :=
  (sound (.of_reachable h)).inv

theorem next_of_steps (h : Reachable P c) (hs : Relation.ReflTransGen (Step P) c c') :
    Next P False c.shared c'.shared :=
  steps_next (.of_reachable h) 
    (Relation.ReflTransGen.mono (fun _ _ => GuardedStep.of_step) _ _ hs)

-- What becomes visible in one step has been decided in the same step.
theorem committed_of_visible (h : Reachable P c) (hs : Step P c c')
    (hm : Minted P c'.shared p.relation inc w) (hne : ¬Active P c.shared.store p w)
    (ha : Active P c'.shared.store p w) :
    ¬Decided P c.shared p.relation inc ∧ Committed P c'.shared p.relation inc w := by
  have hi := inv_of_reachable h
  have hi' := inv_of_reachable (h.step hs)
  have hn := next_of_steps h (.single hs)
  constructor
  · intro hd
    have ⟨v, hv⟩ := Option.ne_none_iff_exists'.mp hd
    obtain ⟨d, rfl, hx, hy, hmd, q, hq⟩ := hi.records.decisions _ _ v hv
    rw [hq, escapeStoreSegment_inj p.trimSpace_relation q.trimSpace_relation] at hx
    rw [escapeStoreSegment_inj hm.trimSpace hmd.trimSpace] at hy
    have hw : w = d.workspace := by rw [hm.left, hmd.left, hx, hy, hq]
    rw [hq, ← hx, ← hy, ← hw] at hmd
    exact hn.hidden p inc w hmd hd hne ha
  · rcases hi'.friends.whole p with hp | ⟨inc', w', hm', hc', ha'⟩
    case inl => exact (ha.not_inactive hp).elim
    case inr =>
      obtain ⟨b, hb, -, -, rfl⟩ := ha.binding
      obtain ⟨b', hb', -, -, rfl⟩ := ha'.binding
      rw [hb] at hb'
      cases hb'
      obtain ⟨-, rfl⟩ := hm.eq hm'
      exact hc'

theorem relations_whole_and_decided_once (h : Reachable P c) :
    (∀ p : Pair P, Inactive P c.shared.store p ∨ ∃ inc w, Minted P c.shared p.relation inc w ∧
      Committed P c.shared p.relation inc w ∧ Active P c.shared.store p w) ∧
    (∀ o x, c.shared.store (.friend o x) ≠ none →
      ∃ p : Pair P, o = escapeStoreSegment P p.fst ∧ x = escapeStoreSegment P p.relation) ∧
    (∀ c', Step P c c' → ∀ (p : Pair P) inc w, Minted P c'.shared p.relation inc w →
      ¬Active P c.shared.store p w → Active P c'.shared.store p w →
      ¬Decided P c.shared p.relation inc ∧ Committed P c'.shared p.relation inc w) ∧
    ∀ c', Relation.ReflTransGen (Step P) c c' →
      (∀ r inc d, c.shared.store (creationDecisionKey P r inc) = some d →
        c'.shared.store (creationDecisionKey P r inc) = some d) ∧
      ∀ (p : Pair P) inc w, Minted P c.shared p.relation inc w → Decided P c.shared p.relation inc →
        ¬Active P c.shared.store p w → ¬Active P c'.shared.store p w := by
  have hi := inv_of_reachable h
  refine ⟨hi.friends.whole, hi.friends.rows, ?_, ?_⟩
  · exact fun c' hs p inc w => committed_of_visible h hs
  · intro c' hs
    have hn := next_of_steps h hs
    exact ⟨fun r inc => hn.decisions _ _, hn.hidden⟩

section Sample

-- What a schedule computes when nothing fails.
theorem Reachable.of_run {β : Type} {b : β} (f : System → β) (t : List (Turn Op Choice))
    (h : ((Config.init .init : System).run (perform P) (fun op : Op => (op.call P).run) t).map f =
      some b) : ∃ c, Reachable P c ∧ f c = b :=
  Interleaving.Reachable.exists_run (does_of_perform P) h

def Sample.pair : Pair Sample.platform where
  fst := ascii "a"
  snd := ascii "b"
  isPublicKey_fst := by decide
  isPublicKey_snd := by decide
  ne := by decide

-- A call that makes the peers friends, in a run where nothing fails.
def Sample.creation (i : Nat) (id : Text) : List (Turn Op Choice) :=
  .call i (.adminCreateFriend ⟨ascii "u"⟩ Sample.pair.fst Sample.pair.snd 1) ::
    List.replicate 20 (.act i ⟨[], 1, id⟩) ++
    .act i ⟨[id ++ ascii "u", id ++ ascii "v"], 1, id⟩ ::
    List.replicate 2 (.act i ⟨[], 1, id⟩)

theorem relations_whole_and_decided_once_sample :
    ∃ c, Reachable platform c ∧ ∃ inc w,
      Minted platform c.shared Sample.pair.relation inc w ∧
      Committed platform c.shared Sample.pair.relation inc w ∧
      Active platform c.shared.store Sample.pair w := by
  obtain ⟨c, hc, hrow⟩ := Reachable.of_run (P := platform) (b := true)
    (fun c => (c.shared.store
      (friendKey platform Sample.pair.fst Sample.pair.relation)).isSome)
    (Sample.creation 0 (ascii "x")) (by decide +kernel)
  refine ⟨c, hc, ((relations_whole_and_decided_once hc).left Sample.pair).resolve_left ?_⟩
  intro hno
  rw [hno.fst.row] at hrow
  cases hrow

end Sample

theorem Active.minted (h : FriendsInv P s) (ha : Active P s.store p w) :
    ∃ inc, Minted P s p.relation inc w := by
  rcases h.whole p with hp | ⟨inc, w', hm, -, ha'⟩
  case inl => exact (ha.not_inactive hp).elim
  case inr =>
    obtain ⟨b, hb, -, -, rfl⟩ := ha.binding
    obtain ⟨b', hb', -, -, rfl⟩ := ha'.binding
    cases hb.symm.trans hb'
    exact ⟨inc, hm⟩

-- A Workspace that belonged to one relation never belongs to another one.
theorem workspace_never_shared (h : Reachable P c) (hs : Relation.ReflTransGen (Step P) c c')
    (ha : Active P c.shared.store p w) (ha' : Active P c'.shared.store q w) :
    p.relation = q.relation := by
  have hn := next_of_steps h hs
  have h' : Reachable P c' := by
    clear ha' hn
    induction hs
    case refl => exact h
    case tail hs hi => exact hi.step hs
  obtain ⟨inc, hm⟩ := ha.minted (inv_of_reachable h).friends
  obtain ⟨inc', hm'⟩ := ha'.minted (inv_of_reachable h').friends
  exact ((hn.minted hm).eq hm').left

theorem workspace_never_shared_sample : ∃ c w, Reachable platform c ∧
    Active platform c.shared.store Sample.pair w ∧
    Sample.pair.relation = Sample.pair.swap.relation := by
  obtain ⟨c, hc, hrow⟩ := Reachable.of_run (P := platform) (b := true)
    (fun c => (c.shared.store (friendKey platform Sample.pair.fst Sample.pair.relation)).isSome)
    (Sample.creation 0 (ascii "x")) (by decide +kernel)
  rcases (inv_of_reachable hc).friends.whole Sample.pair with hno | ⟨_, w, -, -, ha⟩
  · rw [hno.fst.row] at hrow
    cases hrow
  · exact ⟨c, w, hc, ha, workspace_never_shared hc .refl ha ha.swap⟩

theorem friends_le_limit (h : Reachable P c) (owner : Text) :
    (c.shared.store.members false (friendCollectionKey P owner)).card ≤ peerFriendLimit :=
  (inv_of_reachable h).friends.limit _

theorem friends_le_limit_sample : ∃ c, Reachable platform c ∧
    (c.shared.store.members false (friendCollectionKey platform Sample.pair.fst)).card = 1 ∧
    (c.shared.store.members false (friendCollectionKey platform Sample.pair.fst)).card ≤
      peerFriendLimit := by
  obtain ⟨c, hc, hcard⟩ := Reachable.of_run (P := platform) (b := 1)
    (fun c => (c.shared.store.members false
      (friendCollectionKey platform Sample.pair.fst)).card)
    (Sample.creation 0 (ascii "x")) (by decide +kernel)
  exact ⟨c, hc, hcard, friends_le_limit hc _⟩

end GizClaw.Friend

import GizClaw.Friend.Server

-- Keys and relations of peers are as good as the peers that they are made from.

namespace GizClaw.Friend

open PendingDeletion (Text ascii slash)
open Social hiding Call

-- The key that a text in the store belongs to.
def Key.ofPath (path : List Text) : Option Key :=
  match path with
  | [root, x] =>
    if root = ascii "friend-collections" then some (.friendCollection x)
    else if root = ascii "friend-pages" then some (.friendPage x)
    else if root = ascii "friend-peer-revisions" then some (.peerFriendRevision x)
    else if root = ascii "admin-friend-index" then some .adminFriendBuckets
    else if root = ascii "friend-creation-intents" then some (.creationIntent x)
    else if root = ascii "friend-retirement-intents" then some (.retirementIntent x)
    else if root = ascii "friend-retirement-receipts" then some (.retirementReceipt x)
    else some (.workspaceBinding x)
  | [root, x, y] =>
    if root = ascii "friends" then some (.friend x y)
    else if root = ascii "admin-friend-index" then some (.adminFriendBucket y)
    else if root = ascii "friend-creation-decisions" then some (.creationDecision x y)
    else if root = ascii "social-recovery-index" then
      some (.recoveryDirectory (if x = Work.creation.root then .creation else .retirement))
    else if x = ascii "by-id" then some (.workspaceLocatorID y)
    else some (.workspaceLocatorName y)
  | [_, x, _, y] =>
    some (.recoveryBucket (if x = Work.creation.root then .creation else .retirement) y)
  | _ => none

theorem Key.ofPath_path (k : Key) : Key.ofPath k.path = some k := by
  cases k
  case recoveryDirectory work | recoveryBucket work bucket => cases work <;> rfl
  all_goals rfl

variable {P : Platform}

section Peers

variable {t : Text}

theorem graphic_of_isAlphanumeric (h : isAlphanumeric b) : 33 ≤ b ∧ b ≤ 126 := by
  simp only [isAlphanumeric, decide_eq_true_eq, Fin.le_def, Fin.isValue] at h ⊢
  omega

theorem colon_of_isAlphanumeric (h : isAlphanumeric b) : b ≠ colon := by
  rintro rfl
  revert h
  decide

theorem trimSpace_of_isPublicKey (h : P.isPublicKey t) : P.trimSpace t = t :=
  P.trimSpace_eq t fun b hb => graphic_of_isAlphanumeric ((P.isPublicKey_form t h).right b hb)

theorem colon_notMem_of_isPublicKey (h : P.isPublicKey t) : colon ∉ t :=
  fun hc => colon_of_isAlphanumeric ((P.isPublicKey_form t h).right _ hc) rfl

end Peers

-- Two peers that may become friends.
structure Pair (P : Platform) where
  fst : Text
  snd : Text
  isPublicKey_fst : P.isPublicKey fst
  isPublicKey_snd : P.isPublicKey snd
  ne : fst ≠ snd

namespace Pair

variable {p q : Pair P}

def swap (p : Pair P) : Pair P where
  fst := p.snd
  snd := p.fst
  isPublicKey_fst := p.isPublicKey_snd
  isPublicKey_snd := p.isPublicKey_fst
  ne := p.ne.symm

def relation (p : Pair P) : Text :=
  relationID P p.fst p.snd

theorem relation_eq (p : Pair P) : p.relation = min p.fst p.snd ++ colon :: max p.fst p.snd := by
  unfold relation relationID
  rw [trimSpace_of_isPublicKey p.isPublicKey_fst, trimSpace_of_isPublicKey p.isPublicKey_snd]
  rcases le_total p.fst p.snd with h | h
  · simp [h]
  · by_cases hle : p.fst ≤ p.snd
    · simp [hle]
    · simp [hle, h]

@[simp]
theorem relation_swap (p : Pair P) : p.swap.relation = p.relation := by
  rw [relation_eq, relation_eq, swap, min_comm, max_comm]

theorem isPublicKey_min (p : Pair P) : P.isPublicKey (min p.fst p.snd) := by
  rcases min_choice p.fst p.snd with h | h <;> rw [h]
  · exact p.isPublicKey_fst
  · exact p.isPublicKey_snd

theorem isPublicKey_max (p : Pair P) : P.isPublicKey (max p.fst p.snd) := by
  rcases max_choice p.fst p.snd with h | h <;> rw [h]
  · exact p.isPublicKey_fst
  · exact p.isPublicKey_snd

@[simp]
theorem trimSpace_relation (p : Pair P) : P.trimSpace p.relation = p.relation := by
  refine P.trimSpace_eq _ fun b hb => ?_
  rw [relation_eq, List.mem_append, List.mem_cons] at hb
  rcases hb with hb | rfl | hb
  · exact graphic_of_isAlphanumeric ((P.isPublicKey_form _ p.isPublicKey_min).right b hb)
  · decide
  · exact graphic_of_isAlphanumeric ((P.isPublicKey_form _ p.isPublicKey_max).right b hb)

theorem relation_ne_nil (p : Pair P) : p.relation ≠ [] := by
  rw [relation_eq]
  simp

-- The relation tells the peers, up to their order.
theorem eq_or_eq_swap (h : p.relation = q.relation) : q = p ∨ q = p.swap := by
  rw [relation_eq, relation_eq, List.append_cons_inj_of_notMem
    (colon_notMem_of_isPublicKey p.isPublicKey_min)
    (colon_notMem_of_isPublicKey p.isPublicKey_max)] at h
  obtain ⟨hmin, _, hmax⟩ := h
  obtain ⟨a, b, ha, hb, hne⟩ := p
  obtain ⟨a', b', ha', hb', hne'⟩ := q
  simp only [swap, mk.injEq] at hmin hmax ⊢
  rcases le_total a b with h | h <;> rcases le_total a' b' with h' | h' <;> simp_all

end Pair

section Escapes

variable {r r' : Text}

theorem escapeStoreSegment_inj (h : P.trimSpace r = r) (h' : P.trimSpace r' = r') :
    escapeStoreSegment P r = escapeStoreSegment P r' ↔ r = r' := by
  unfold escapeStoreSegment
  rw [h, h', P.queryEscape_inj.eq_iff]

end Escapes

end GizClaw.Friend

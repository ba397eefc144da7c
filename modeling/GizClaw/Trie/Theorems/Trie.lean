import GizClaw.Trie.Stored

-- The trie stores what it is for, and `Match` finds the pattern that comes first.

namespace GizClaw.Trie

open PendingDeletion (Text ascii slash)
open Wildcard

variable {T E : Type} [Inhabited T]

attribute [local simp] found matchEnd matchAt Stored.empty

section Segments

-- `strings.Cut` at a slash. Without one, all is in front of it.
def cut (path : Text) : Text × Text :=
  (path.takeWhile (· ≠ slash), (path.dropWhile (· ≠ slash)).tail)

theorem segments_cut (h : path ≠ []) :
    segments path = (cut path).fst :: segments (cut path).snd := by
  induction path
  case nil => exact absurd rfl h
  case cons c cs hi =>
    by_cases hc : c = slash
    case pos => simp [segments, cut, hc]
    case neg =>
      cases cs
      case nil => simp [segments, cut, hc]
      case cons d ds =>
        have hi := hi (List.cons_ne_nil d ds)
        rw [segments, if_neg hc, hi]
        simp [cut, hc]

end Segments

section Stored

-- What is stored by patterns that begin with a segment.
def Stored.under (a : Stored T) (s : Segment Text) : Stored T :=
  fun p => a (s :: p)

@[local simp]
def Stored.replace (a : Stored T) (s : Segment Text) (b : Stored T) : Stored T
  | [] => a []
  | s' :: p => if s' = s then b p else a (s' :: p)

omit [Inhabited T]

theorem Stored.update_cons (a : Stored T) (s : Segment Text) (p : List (Segment Text))
    (e : Entry T) :
    Function.update a (s :: p) e = a.replace s (Function.update (a.under s) p e) := by
  funext p'
  cases p'
  case nil => simp
  case cons s' p' =>
    by_cases hs : s' = s
    case pos => simp [Stored.under, Function.update_apply, hs]
    case neg => simp [hs]

theorem Stored.replace_under (a : Stored T) (s : Segment Text) : a.replace s (a.under s) = a := by
  funext p
  cases p
  case nil => rfl
  case cons s' p => by_cases hs : s' = s <;> simp [Stored.under, hs]

theorem Stored.set_cons {a : Stored T} (h : ¬(s = .all ∧ p ≠ [])) :
    a.set (s :: p) fn =
      (a.replace s ((a.under s).set p fn).fst, ((a.under s).set p fn).snd) := by
  have hv : Valid (s :: p) = Valid p := by
    cases s <;> cases p <;> simp_all [Valid]
  simp only [Stored.set, hv]
  split
  case isFalse => simp [Stored.replace_under]
  case isTrue =>
    have : (a.under s) p = a (s :: p) := rfl
    rw [this]
    rcases fn (a (s :: p)).value (a (s :: p)).isSet with ⟨value, _ | err⟩
    all_goals simp [Stored.update_cons]

end Stored

section Children

def child (t : Trie T) : Segment Text → Option (Trie T)
  | .literal text => t.children text
  | .any => t.matchAny
  | .all => t.matchAll

def setChild (t ch : Trie T) : Segment Text → Trie T
  | .literal text => { t with children := Function.update t.children text (some ch) }
  | .any => { t with matchAny := some ch }
  | .all => { t with matchAll := some ch }

-- The wildcards are no literal segments.
inductive WellFormed : Trie T → Prop
  | mk {t : Trie T} (literal : ∀ text ch, t.children text = some ch → segment text = .literal text)
    (child : ∀ s ch, t.child s = some ch → WellFormed ch) : WellFormed t

def find (t : Trie T) : List (Segment Text) → Option (Trie T)
  | [] => some t
  | s :: p => (t.child s).bind (find · p)

-- What is stored in the nodes. There is nothing where there is no node.
def entries (t : Trie T) : Stored T := fun p =>
  match t.find p with
  | some node => ⟨node.isSet, node.value⟩
  | none => ⟨false, default⟩

theorem eq_of_segment {text text' : Text} (h : segment text = .literal text') : text' = text := by
  simp only [segment] at h
  split at h
  · cases h
  · split at h
    · cases h
    · exact (Segment.literal.inj h).symm

omit [Inhabited T] in
theorem child_setChild (t ch : Trie T) (s s' : Segment Text) :
    (t.setChild ch s).child s' = if s' = s then some ch else t.child s' := by
  cases s <;> cases s' <;> simp [child, setChild, Function.update_apply]

theorem entries_nil (t : Trie T) : t.entries [] = ⟨t.isSet, t.value⟩ :=
  rfl

theorem entries_new : (new : Trie T).entries = Stored.empty := by
  funext p
  cases p
  case nil => rfl
  case cons s p => cases s <;> rfl

theorem entries_cons (t : Trie T) (s : Segment Text) (p : List (Segment Text)) :
    t.entries (s :: p) = ((t.child s).getD new).entries p := by
  cases h : t.child s
  case some => simp [entries, find, h]
  case none =>
    rw [Option.getD_none, entries_new]
    simp [entries, find, h]

theorem entries_under (t : Trie T) (s : Segment Text) :
    t.entries.under s = ((t.child s).getD new).entries :=
  funext (entries_cons t s)

theorem wellFormed_new : WellFormed (new : Trie T) :=
  .mk nofun fun s _ h => by cases s <;> cases h

theorem WellFormed.getD {t : Trie T} (h : WellFormed t) (s : Segment Text) :
    WellFormed ((t.child s).getD new) := by
  obtain ⟨_, hc⟩ := h
  cases hs : t.child s
  case some ch => exact hc s ch hs
  case none => exact wellFormed_new

omit [Inhabited T] in
theorem WellFormed.setChild (h : WellFormed t) (hch : WellFormed ch) {text : Text} :
    WellFormed (t.setChild ch (segment text)) := by
  obtain ⟨hl, hc⟩ := h
  refine .mk (fun text' ch' h' => ?_) fun s ch' h' => ?_
  · change (t.setChild ch (segment text)).child (.literal text') = some ch' at h'
    rw [child_setChild] at h'
    split at h'
    case isTrue hs => exact eq_of_segment hs.symm ▸ hs.symm
    case isFalse => exact hl text' ch' h'
  · rw [child_setChild] at h'
    split at h'
    case isTrue => exact Option.some.inj h' ▸ hch
    case isFalse => exact hc s ch' h'

end Children

section Set

variable {fn : SetFunc T E} {t : Trie T}

-- All branches of `Set` do the same with the child for the first segment.
theorem setAt_cons (h : WellFormed t) (first : Text) (subseq : List Text) :
    t.setAt fn (first :: subseq) =
      if segment first = .all ∧ subseq ≠ [] then
        (t, some .invalidPattern)
      else
        let (ch, err) := ((t.child (segment first)).getD new).setAt fn subseq
        (t.setChild ch (segment first), err) := by
  obtain ⟨hl, _⟩ := h
  rw [setAt]
  cases hc : t.children first
  case some ch =>
    rw [hl first ch hc]
    simp [child, hc, setChild]
  case none =>
    by_cases hany : first = ascii "+"
    case pos => simp [segment, hany, child, setChild]
    case neg =>
      by_cases hall : first = ascii "#"
      case neg => simp [segment, hany, hall, child, hc, setChild]
      case pos =>
        subst hall
        have hs : segment (ascii "#") = .all := by decide
        rw [hs]
        cases subseq <;> simp [hany, child, setChild, setAt]

omit [Inhabited T] in
theorem child_setFunc (t : Trie T) (s : Segment Text) : (t.setFunc fn).fst.child s = t.child s := by
  simp only [setFunc]
  rcases fn t.value t.isSet with ⟨value, _ | err⟩ <;> cases s <;> rfl

omit [Inhabited T] in
theorem WellFormed.setFunc (h : WellFormed t) : WellFormed (t.setFunc fn).fst := by
  obtain ⟨hl, hc⟩ := h
  refine .mk (fun text ch h => hl text ch ?_) fun s ch h => hc s ch (child_setFunc t s ▸ h)
  exact (child_setFunc t (.literal text)).symm.trans h

theorem entries_of_child {t t' : Trie T} (h : ∀ s, t'.child s = t.child s) :
    t'.entries = Function.update t.entries [] ⟨t'.isSet, t'.value⟩ := by
  funext p
  cases p
  case nil => simp [entries_nil]
  case cons => simp [entries_cons, h]

theorem entries_setFunc (t : Trie T) :
    t.entries.set [] fn = ((t.setFunc fn).fst.entries, (t.setFunc fn).snd) := by
  rw [entries_of_child (child_setFunc t)]
  simp only [Stored.set, Valid, entries_nil, if_true, setFunc]
  rcases fn t.value t.isSet with ⟨value, _ | err⟩ <;> rfl

theorem entries_setChild (t ch : Trie T) (s : Segment Text) :
    (t.setChild ch s).entries = t.entries.replace s ch.entries := by
  funext p
  cases p
  case nil => cases s <;> rfl
  case cons s' p =>
    rw [entries_cons, child_setChild, Stored.replace]
    split
    case isTrue => rfl
    case isFalse => exact (entries_cons t s' p).symm

-- `Set` stores by the pattern of the path, and has no other effect on what is stored.
theorem entries_setAt (fn : SetFunc T E) (h : WellFormed t) (path : List Text) :
    t.entries.set (path.map segment) fn =
      ((t.setAt fn path).fst.entries, (t.setAt fn path).snd) ∧
    WellFormed (t.setAt fn path).fst := by
  induction path generalizing t
  case nil => exact ⟨entries_setFunc t, h.setFunc⟩
  case cons first subseq hi =>
    have ⟨hset, hwf⟩ := hi (h.getD (segment first))
    rw [setAt_cons h]
    split
    case isTrue hinv => exact ⟨by simp [Stored.set, Valid, hinv], h⟩
    case isFalse hvalid =>
      refine ⟨?_, h.setChild hwf⟩
      rw [List.map_cons, Stored.set_cons (by simpa using hvalid), entries_under, hset]
      simp only [entries_setChild]

end Set

section Match

variable {t : Trie T}

-- The texts that the segments of a pattern add to the route.
@[local simp]
def suffix (p : List (Segment Text)) : Text :=
  p.flatMap fun s => slash :: text s

-- What a search below a segment has to find.
def Finds (stored : Stored T) (matched : Text) (q : List Text)
    (r : Option (Text × Option T × Bool)) : Prop :=
  (∃ p, First (fun p => (stored p).isSet) q p ∧
    r = some (matched ++ suffix p, some (stored p).value, true)) ∨
  Unmatched (fun p => (stored p).isSet) q ∧ r = none

theorem Finds.under
    (hi : ∀ ch, t.child s = some ch → Finds ch.entries matched q (found (ch.matchAt matched q))) :
    Finds (t.entries.under s) matched q
      ((t.child s).bind fun ch => found (ch.matchAt matched q)) := by
  rw [entries_under]
  cases hc : t.child s
  case some ch => exact hi ch hc
  case none =>
    refine .inr ⟨fun p hs => ?_, rfl⟩
    simp [entries_new] at hs

theorem finds_matchAt (h : WellFormed t) (matched : Text) (q : List Text) :
    Finds t.entries matched q (found (t.matchAt matched q)) := by
  induction q generalizing t matched
  case nil =>
    cases hs : t.isSet
    case true =>
      refine .inl ⟨[], .nil hs, ?_⟩
      simp [hs, entries_nil]
    case false =>
      refine .inr ⟨.nil (by simp [entries_nil, hs]), ?_⟩
      simp [hs]
  case cons first subseq hi =>
    obtain ⟨_, hc⟩ := h
    have hlit : Finds _ _ _ _ := Finds.under (s := .literal first)
      fun ch h => hi (hc _ ch h) (matched ++ [slash] ++ first)
    have hany : Finds _ _ _ _ := Finds.under (s := .any)
      fun ch h => hi (hc _ ch h) (matched ++ ascii "/+")
    simp only [matchAt]
    rcases hlit with ⟨p, hf, hr⟩ | ⟨hl, hr⟩
    case inl =>
      refine .inl ⟨.literal first :: p, hf.literal, ?_⟩
      rw [show t.children first = t.child (.literal first) from rfl, hr]
      simp [text, Stored.under]
    case inr =>
      rw [show t.children first = t.child (.literal first) from rfl, hr, Option.none_or]
      rcases hany with ⟨p, hf, hr⟩ | ⟨ha, hr⟩
      case inl =>
        refine .inl ⟨.any :: p, hf.any hl, ?_⟩
        rw [show t.matchAny = t.child .any from rfl, hr]
        have : ascii "/+" = slash :: text .any := by decide
        simp [this, Stored.under]
      case inr =>
        rw [show t.matchAny = t.child .any from rfl, hr, Option.none_or]
        have hentry : t.entries [.all] = ((t.child .all).getD new).entries [] := entries_cons t _ _
        cases hall : t.matchAll
        case none =>
          rw [show t.child .all = none from hall] at hentry
          exact .inr ⟨.cons hl ha (by simp [hentry, entries_nil, new]), rfl⟩
        case some ch =>
          rw [show t.child .all = some ch from hall, Option.getD_some, entries_nil] at hentry
          cases hs : ch.isSet
          case false =>
            exact .inr ⟨.cons hl ha (by simp [hentry, hs]), by simp [hs]⟩
          case true =>
            refine .inl ⟨[.all], .all hl ha (by simp [hentry, hs]), ?_⟩
            have : ascii "/#" = slash :: text .all := by decide
            simp [hs, this, hentry]

omit [Inhabited T]

-- The search ends with one result, whatever else the nodes hold.
theorem Finds.unique {stored : Stored T} (h : Finds stored matched q r)
    (h' : Finds stored matched q r') : r = r' := by
  rcases h with ⟨p, hf, rfl⟩ | ⟨hu, rfl⟩ <;> rcases h' with ⟨p', hf', rfl⟩ | ⟨hu', rfl⟩
  · rw [hf.unique hf']
  · exact absurd hf.fits (hu' p hf.holds)
  · exact absurd hf'.fits (hu p' hf'.holds)
  · rfl

theorem eq_of_found (h : found r = some r') : r = r' := by
  simp only [found, Option.ite_none_right_eq_some, Option.some.injEq] at h
  exact h.right

theorem not_ok_of_found (h : found r = none) : r.snd.snd = false := by
  simpa using h

theorem ok_of_found (h : found r = some r') : r'.snd.snd := by
  simp only [found, Option.ite_none_right_eq_some, Option.some.injEq] at h
  exact h.right ▸ h.left

theorem matchAt_eq (t : Trie T) (matched first : Text) (subseq : List Text) :
    t.matchAt matched (first :: subseq) =
      (found (t.matchAt matched (first :: subseq))).getD ([], none, false) := by
  simp only [matchAt]
  generalize ho : Option.or _ _ = o
  cases o
  case none => rfl
  case some r =>
    have hr : r.snd.snd := by
      rcases Option.or_eq_some_iff.mp ho with ho | ⟨_, ho⟩
      case inl =>
        have ⟨_, _, hr⟩ := Option.bind_eq_some_iff.mp ho
        exact ok_of_found hr
      case inr =>
        rcases Option.or_eq_some_iff.mp ho with ho | ⟨_, ho⟩
        all_goals
          have ⟨_, _, hr⟩ := Option.bind_eq_some_iff.mp ho
          exact ok_of_found hr
    simp [hr]

theorem matchPath_congr [Inhabited T] {t t' : Trie T} (h : WellFormed t) (h' : WellFormed t')
    (he : t.entries = t'.entries) (path : Text) : t.matchPath path = t'.matchPath path := by
  unfold matchPath
  cases segments path
  case nil =>
    have := congrFun he []
    simp only [entries_nil, Entry.mk.injEq] at this
    simp [this]
  case cons first subseq =>
    rw [matchAt_eq, matchAt_eq t']
    rw [(finds_matchAt h [] (first :: subseq)).unique (he ▸ finds_matchAt h' [] (first :: subseq))]

end Match

section Runs

theorem entries_run (calls : List (SetCall T E)) :
    (run calls).entries = stored calls ∧ WellFormed (run calls) := by
  suffices h : ∀ (t : Trie T), WellFormed t →
      (calls.foldl (fun t call => (t.set call.path call.fn).fst) t).entries =
        calls.foldl (fun a call => (a.set (pattern call.path) call.fn).fst) t.entries ∧
      WellFormed (calls.foldl (fun t call => (t.set call.path call.fn).fst) t) by
    have := h new wellFormed_new
    rwa [entries_new] at this
  induction calls
  case nil => exact fun t h => ⟨rfl, h⟩
  case cons call _ hi =>
    intro t h
    have ⟨hset, hwf⟩ := entries_setAt call.fn h (segments call.path)
    have := hi (t.set call.path call.fn).fst hwf
    simp only [List.foldl_cons, pattern, hset]
    exact this

theorem route_eq (p : List (Segment Text)) : route p = suffix p := by
  cases p
  case nil => rfl
  case cons s p =>
    induction p generalizing s
    case nil => simp [route, suffix]
    case cons s' p hi =>
      have : route (s :: s' :: p) = slash :: text s ++ route (s' :: p) := by
        simp [route]
      rw [this, hi]
      rfl

omit [Inhabited T] in
-- A call that fails without a write stores nothing.
theorem set_of_failed {a : Stored T} (hfn : fn.Safe)
    (h : (a.set p fn).snd ≠ none) : (a.set p fn).fst = a := by
  simp only [Stored.set] at h ⊢
  split at h
  case isFalse hv => rw [if_neg hv]
  case isTrue hv =>
    rw [if_pos hv]
    have hsafe := hfn (a p).value (a p).isSet
    revert h hsafe
    rcases fn (a p).value (a p).isSet with ⟨value, _ | err⟩
    · simp
    · intro _ hsafe
      have : value = (a p).value := hsafe nofun
      simp [this]

theorem stored_append (calls later : List (SetCall T E)) (call : SetCall T E)
    (h : ((stored calls).set (pattern call.path) call.fn).fst = stored calls) :
    stored (calls ++ call :: later) = stored (calls ++ later) := by
  simp only [stored, List.foldl_append, List.foldl_cons] at h ⊢
  rw [h]

-- `Match` finds the stored pattern that comes first, with its value and its route, and finds none
-- only when there is none. Calls of `Set` that fail without a write have no effect on it.
theorem match_first (calls : List (SetCall T E)) :
    (∀ path,
      (∃ p, First (fun p => (stored calls p).isSet) (segments path) p ∧
        (run calls).matchPath path = (route p, some (stored calls p).value, true)) ∨
      Unmatched (fun p => (stored calls p).isSet) (segments path) ∧
        ((run calls).matchPath path).snd.snd = false) ∧
    (∀ call : SetCall T E, call.fn.Safe → ((run calls).set call.path call.fn).snd ≠ none →
      ∀ later path,
        (run (calls ++ call :: later)).matchPath path = (run (calls ++ later)).matchPath path) := by
  have ⟨he, hwf⟩ := entries_run calls
  refine ⟨fun path => ?_, fun call hsafe hfail later path => ?_⟩
  · have hfinds := finds_matchAt hwf [] (segments path)
    rw [he] at hfinds
    rcases hfinds with ⟨p, hf, hr⟩ | ⟨hu, hr⟩
    · refine .inl ⟨p, hf, ?_⟩
      rw [route_eq]
      exact eq_of_found hr
    · exact .inr ⟨hu, not_ok_of_found hr⟩
  · have hset := (entries_setAt call.fn hwf (segments call.path)).left
    rw [he] at hset
    have hfailed : ((stored calls).set (pattern call.path) call.fn).snd ≠ none := by
      rwa [pattern, hset]
    have hstored := stored_append calls later call (set_of_failed hsafe hfailed)
    have ⟨he₁, hwf₁⟩ := entries_run (calls ++ call :: later)
    have ⟨he₂, hwf₂⟩ := entries_run (calls ++ later)
    exact matchPath_congr hwf₁ hwf₂ (by rw [he₁, he₂, hstored]) path

namespace Sample

def put (path : String) (value : Nat) : SetCall Nat Unit :=
  ⟨ascii path, fun _ _ => (value, none)⟩

def calls : List (SetCall Nat Unit) :=
  [put "a/+/c" 1, put "a/#" 2, put "a/b" 3]

end Sample

-- The literal `b` leads nowhere, so that the wildcard is taken. A call with an invalid pattern
-- leaves a node behind, and changes nothing.
theorem match_first_sample :
    (run Sample.calls).matchPath (ascii "a/b/c/") = (ascii "/a/+/c", some 1, true) ∧
    ∀ path, (run (Sample.calls ++ Sample.put "a/x/#/b" 9 :: [])).matchPath path =
      (run (Sample.calls ++ [])).matchPath path := by
  refine ⟨by decide +kernel, (match_first Sample.calls).right _ ?_ ?_ []⟩
  · intro _ _ h
    exact absurd rfl h
  · decide +kernel

-- The pattern without segments has an empty route, not that of a slash in front of no segments.
theorem empty_route :
    let calls := [Sample.put "" 7]
    First (fun p => (stored calls p).isSet) (segments []) [] ∧
      (run calls).matchPath [] = ([], some 7, true) ∧
      ([] : Text) ≠ slash :: [slash].intercalate (([] : List (Segment Text)).map text) :=
  ⟨.nil (by decide +kernel), by decide +kernel, nofun⟩

end Runs

end GizClaw.Trie

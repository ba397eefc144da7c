import GizClaw.KV.Theorems.Typed
import GizClaw.Lib.Sequential
import GizClaw.Presence.Transitions

-- A batch of transitions does what its transitions would do by themselves.

namespace GizClaw.Presence

open Interleaving (Program)
open KV.Typed (Condition Entry Mutation)

section Outcomes

variable (S : Service) (s : State) (q : Request) (p : Peer)

def State.resultsOf : List TransitionResult :=
  s.results.filterMap fun r => if r.fst = p then some r.snd else none

-- The mutation is not turned down.
def Holds (σ : Store) (m : Mutation Key Bytes Bytes) : Prop :=
  ∀ c ∈ m.conditions, σ c.key = c.expected.map .record

-- The commit of a mutation that includes the given one.
structure Written (c : Commit) (m : Mutation Key Bytes Bytes) : Prop where
  atomic : c.before.applyMutation c.mutation = .ok (some c.after)
  holds : Holds c.before m
  entries : ∀ e ∈ m.entries, e ∈ c.mutation.entries
  stored : ∀ e ∈ m.entries, c.after e.key = some (.record e.value)

def Untouched (c : Commit) : Prop :=
  ∀ e ∈ c.mutation.entries, e.key ≠ .peer p ∧ e.key ≠ .owner p

-- The request's own mutation would have been turned down at some time, and nothing of it was
-- written.
structure Refused : Prop where
  unmatched : ∃ σ ∈ s.seen, ¬Holds σ (transitionMutation S q)
  unwritten : ∀ c ∈ s.commits, Untouched q.peer c

structure Accurate (result : TransitionResult) : Prop where
  matched : result.matched = true → ∃ c ∈ s.commits, Written c (transitionMutation S q)
  unmatched : result = ⟨false, none⟩ → Refused S s q

end Outcomes

section Calls

variable {S : Service} {s s' : State} {q : Request} {p : Peer} {batch : List Request} {α : Type}
variable {active : List Request} {σ : Store} {err : Option KV.Err}

theorem post_act {f : Reply a → Call α}
    (h : ∀ r s', Does a s r s' → (f r).Post Does Q s') : (act a >>= f).Post Does Q s :=
  h

theorem resultsOf_report :
    State.resultsOf { s with results := (q.peer, result) :: s.results } p =
      if q.peer = p then result :: s.resultsOf p else s.resultsOf p := by
  unfold State.resultsOf
  by_cases hp : q.peer = p <;> simp [hp]

-- The results of the others stay what they are.
structure Reports (batch : List Request) (s s' : State) : Prop where
  seen : s'.seen = s.seen
  commits : s'.commits = s.commits
  results : ∀ p, p ∉ batch.map (·.peer) → s'.resultsOf p = s.resultsOf p

theorem post_completeTransitions {matched : Bool} (hnodup : (batch.map (·.peer)).Nodup) :
    (completeTransitions matched err batch).Post Does (fun s' _ => Reports batch s s' ∧
      ∀ q ∈ batch, s'.resultsOf q.peer = ⟨matched, err⟩ :: s.resultsOf q.peer) s := by
  induction batch generalizing s
  case nil => exact ⟨⟨rfl, rfl, fun _ _ => rfl⟩, fun _ hq => nomatch hq⟩
  case cons q batch hi =>
    have ⟨hq, hnodup⟩ := List.nodup_cons.mp hnodup
    refine post_act fun r s₁ h => ?_
    cases h
    refine (hi hnodup).mono fun s' _ ⟨hreports, hresults⟩ =>
      ⟨⟨hreports.seen, hreports.commits, ?_⟩, ?_⟩
    case refine_1 =>
      intro p hp
      rw [List.map_cons, List.mem_cons, not_or] at hp
      obtain ⟨hne, hp⟩ := hp
      rw [hreports.results p hp, resultsOf_report, if_neg (Ne.symm hne)]
    case refine_2 =>
      refine List.forall_mem_cons.mpr ⟨?_, fun q' hq' => ?_⟩
      · rw [hreports.results q.peer hq, resultsOf_report, if_pos rfl]
      · have hne : q.peer ≠ q'.peer := fun he => hq (List.mem_map.mpr ⟨q', hq', he.symm⟩)
        rw [hresults q' hq', resultsOf_report, if_neg hne]

-- The value was there at some time, unless its read failed.
def Read (s : State) (k : Key) (value : Except KV.Err Bytes) : Prop :=
  (∃ err, value = .error err ∧ err ≠ .notFound) ∨ ∃ σ ∈ s.seen, readRecord σ k = value

theorem Read.later (h : Read s k value) (hs : ∀ σ ∈ s.seen, σ ∈ s'.seen) : Read s' k value :=
  h.imp_right fun ⟨σ, hσ, hr⟩ => ⟨σ, hs σ hσ, hr⟩

-- A call that reads and nothing else.
structure Reads (s s' : State) : Prop where
  seen : ∀ σ ∈ s.seen, σ ∈ s'.seen
  commits : s'.commits = s.commits
  results : s'.results = s.results

theorem Reads.resultsOf (h : Reads s s') (p : Peer) : s'.resultsOf p = s.resultsOf p := by
  unfold State.resultsOf
  rw [h.results]

theorem post_batchGet {keys : List Key} :
    (batchGet keys).Post Does (fun s' values => Reads s s' ∧ List.Forall₂ (Read s') keys
    values) s := by
  induction keys generalizing s
  case nil => exact ⟨⟨fun _ h => h, rfl, rfl⟩, .nil⟩
  case cons k keys hi =>
    refine post_act fun value s₁ h => ?_
    have hread : Reads s s₁ ∧ Read s₁ k value := by
      cases h
      case batchGet σ =>
        exact ⟨⟨fun _ => List.mem_cons_of_mem σ, rfl, rfl⟩, .inr ⟨σ, List.mem_cons_self, rfl⟩⟩
      case getFailed he => exact ⟨⟨fun _ h => h, rfl, rfl⟩, .inl ⟨_, rfl, he⟩⟩
    have ⟨hfirst, hvalue⟩ := hread
    refine hi.bind fun s' values ⟨hrest, hvalues⟩ =>
      ⟨⟨?_, ?_, ?_⟩, .cons (hvalue.later hrest.seen) hvalues⟩
    case refine_1 => exact fun σ hσ => hrest.seen σ (hfirst.seen σ hσ)
    case refine_2 => exact hrest.commits.trans hfirst.commits
    case refine_3 => exact hrest.results.trans hfirst.results

-- Where a request is left out, it has a result for it.
structure Left (S : Service) (s s' : State) (q : Request) (result : TransitionResult) : Prop where
  results : s'.resultsOf q.peer = result :: s.resultsOf q.peer
  matched : result.matched = false
  refuted : result.err = none → ∃ σ ∈ s'.seen, ¬Holds σ (transitionMutation S q)

structure Selects (S : Service) (batch active : List Request) (s s' : State) : Prop where
  sublist : active.Sublist batch
  kept : ∀ q ∈ active, s'.resultsOf q.peer = s.resultsOf q.peer
  left : ∀ q ∈ batch, q ∉ active → ∃ result, Left S s s' q result

theorem not_holds_of_owner (h : σ (.owner q.peer) ≠ q.expected.map .record) :
    ¬Holds σ (transitionMutation S q) :=
  fun hn => h (hn q.owner (List.mem_cons_of_mem _ (List.mem_singleton_self _)))

theorem readRecord_eq_ok : readRecord σ k = .ok v ↔ σ k = some (.record v) := by
  unfold readRecord
  split <;> simp_all

theorem readRecord_eq_notFound (h : readRecord σ k = .error .notFound) (v : Bytes) :
    σ k ≠ some (.record v) :=
  fun hk => nomatch h.symm.trans (readRecord_eq_ok.mpr hk)

-- What the selection makes of a batch.
structure Selection (S : Service) (batch active : List Request) (s s' : State) : Prop extends
  Reports batch s s', Selects S batch active s s'

theorem Selection.keep (h : Selection S batch active s s') (hq : q.peer ∉ batch.map (·.peer)) :
    Selection S (q :: batch) (q :: active) s s' where
  seen := h.seen
  commits := h.commits
  results := fun p hp => h.results p fun hn => hp (List.mem_cons_of_mem _ hn)
  sublist := h.sublist.cons_cons q
  kept := List.forall_mem_cons.mpr ⟨h.results q.peer hq, h.kept⟩
  left := fun q' hq' hn =>
    h.left q' ((List.mem_cons.mp hq').resolve_left fun he => hn (he ▸ List.mem_cons_self))
      fun hm => hn (List.mem_cons_of_mem _ hm)

theorem Selection.leave
    (h : Selection S batch active { s with results := (q.peer, result) :: s.results } s')
    (hq : q.peer ∉ batch.map (·.peer)) (hmatched : result.matched = false)
    (hrefuted : result.err = none → ∃ σ ∈ s.seen, ¬Holds σ (transitionMutation S q)) :
    Selection S (q :: batch) active s s' := by
  have hother (q' : Request) (hq' : q' ∈ batch) :
      State.resultsOf { s with results := (q.peer, result) :: s.results } q'.peer =
        s.resultsOf q'.peer := by
    rw [resultsOf_report, if_neg fun he => hq (List.mem_map.mpr ⟨q', hq', he.symm⟩)]
  refine ⟨⟨h.seen, h.commits, fun p hp => ?_⟩, h.sublist.cons q, fun q' hq' => ?_,
    fun q' hq' hn => ?_⟩
  case refine_1 =>
    rw [List.map_cons, List.mem_cons, not_or] at hp
    rw [h.results p hp.right, resultsOf_report, if_neg (Ne.symm hp.left)]
  case refine_2 => exact (h.kept q' hq').trans (hother q' (h.sublist.subset hq'))
  case refine_3 =>
    rcases List.mem_cons.mp hq' with rfl | hq'
    · refine ⟨result, ?_, hmatched, h.seen ▸ hrefuted⟩
      rw [h.results _ hq, resultsOf_report, if_pos rfl]
    · have ⟨result', hleft⟩ := h.left q' hq' hn
      exact ⟨result', hother q' hq' ▸ hleft.results, hleft.matched, hleft.refuted⟩

theorem post_selectActive {qvs : List (Request × Except KV.Err Bytes)}
    (hnodup : ((qvs.map (·.fst)).map (·.peer)).Nodup)
    (hread : ∀ qv ∈ qvs, Read s (.owner qv.fst.peer) qv.snd) : (selectActive qvs).Post Does
    (fun s' active => Selection S (qvs.map (·.fst)) active s s') s := by
  induction qvs generalizing s
  case nil =>
    exact ⟨⟨rfl, rfl, fun _ _ => rfl⟩, .slnil, (fun _ hq => nomatch hq), fun _ hq => nomatch hq⟩
  case cons qv qvs hi =>
    obtain ⟨q, value⟩ := qv
    have ⟨hq, hnodup⟩ := List.nodup_cons.mp hnodup
    have ⟨hvalue, hread⟩ := List.forall_mem_cons.mp hread
    have hkeep : (selectActive qvs >>= fun active => pure (q :: active)).Post Does
        (fun s' active => Selection S (q :: qvs.map (·.fst)) active s s') s :=
      (hi hnodup hread).bind fun s' active h => h.keep hq
    have hleave (err : Option KV.Err) (hrefuted : err = none → ∃ σ ∈ s.seen,
        ¬Holds σ (transitionMutation S q)) :
        (act (.report q.peer ⟨false, err⟩) >>= fun _ => selectActive qvs).Post Does
          (fun s' active => Selection S (q :: qvs.map (·.fst)) active s s') s := by
      refine post_act fun r s₁ h => ?_
      cases h
      refine (hi (s := { s with results := (q.peer, ⟨false, err⟩) :: s.results }) hnodup hread).mono
        fun s' active h => ?_
      exact h.leave (s := s) hq rfl hrefuted
    unfold selectActive
    split
    case h_1 =>
      split
      case isTrue => exact hkeep
      case isFalse he =>
        refine hleave none fun _ => ?_
        have ⟨σ, hσ, hr⟩ := hvalue.resolve_left fun ⟨err, herr, hn⟩ =>
            hn (Except.error.inj herr).symm
        refine ⟨σ, hσ, not_holds_of_owner ?_⟩
        have ⟨v, hv⟩ := Option.ne_none_iff_exists'.mp he
        rw [hv]
        exact readRecord_eq_notFound hr v
    case h_2 err _ => exact hleave (some err) fun hn => nomatch hn
    case h_3 =>
      split
      case isTrue => exact hkeep
      case isFalse he =>
        refine hleave none fun _ => ?_
        have ⟨σ, hσ, hr⟩ := hvalue.resolve_left fun ⟨err, herr, hn⟩ => nomatch herr
        refine ⟨σ, hσ, not_holds_of_owner ?_⟩
        rw [readRecord_eq_ok.mp hr]
        intro heq
        cases hx : q.expected <;> rw [hx] at heq
        case none => nomatch heq
        case some =>
          cases heq
          exact he hx

theorem not_holds_of_guard (h : σ (.generation S.server) ≠ some (.record S.generation)) :
    ¬Holds σ (transitionMutation S q) :=
  fun hn => h (hn S.guard List.mem_cons_self)

-- The batch has been turned down.
structure Inspection (S : Service) (batch active : List Request) (s s' : State) : Prop extends
    Selects S batch active s s' where
  seen : ∀ σ ∈ s.seen, σ ∈ s'.seen
  commits : s'.commits = s.commits
  results : ∀ p, p ∉ batch.map (·.peer) → s'.resultsOf p = s.resultsOf p

-- Nothing is tried again.
theorem post_complete (hnodup : (batch.map (·.peer)).Nodup) (hreads : Reads s s₁)
    (hrefuted : err = none → ∀ q ∈ batch, ∃ σ ∈ s₁.seen, ¬Holds σ (transitionMutation S q)) :
    (completeTransitions false err batch >>= fun _ => pure []).Post Does
      (fun s' active => Inspection S batch active s s') s₁ := by
  refine (post_completeTransitions hnodup).bind fun s' _ ⟨hreports, hresults⟩ => ?_
  refine ⟨⟨List.nil_sublist _, (fun _ hq => nomatch hq), fun q hq _ => ?_⟩, ?_, ?_, ?_⟩
  case refine_1 =>
    refine ⟨⟨false, err⟩, hreads.resultsOf q.peer ▸ hresults q hq, rfl, fun he => ?_⟩
    rw [hreports.seen]
    exact hrefuted he q hq
  case refine_2 => exact fun σ hσ => hreports.seen ▸ hreads.seen σ hσ
  case refine_3 => exact hreports.commits.trans hreads.commits
  case refine_4 => exact fun p hp => (hreports.results p hp).trans (hreads.resultsOf p)

theorem post_inspect (hnodup : (batch.map (·.peer)).Nodup) :
    (inspect S batch).Post Does (fun s' active => Inspection S batch active s s') s := by
  refine post_batchGet.bind fun s₁ values ⟨hreads, hvalues⟩ => ?_
  match values, hvalues with
  | generation :: values, .cons hgeneration hvalues =>
    dsimp only
    split
    case h_1 =>
      have ⟨σ, hσ, hr⟩ := hgeneration.resolve_left fun ⟨err, herr, hn⟩ =>
          hn (Except.error.inj herr).symm
      refine post_complete hnodup hreads fun _ q _ => ⟨σ, hσ, not_holds_of_guard ?_⟩
      exact readRecord_eq_notFound hr S.generation
    case h_2 => exact post_complete hnodup hreads fun hn => nomatch hn
    case h_3 =>
      split
      case isFalse hv =>
        have ⟨σ, hσ, hr⟩ := hgeneration.resolve_left fun ⟨err, herr, hn⟩ => nomatch herr
        refine post_complete hnodup hreads fun _ q _ => ⟨σ, hσ, not_holds_of_guard fun hk => hv ?_⟩
        exact Except.ok.inj (hr.symm.trans (readRecord_eq_ok.mpr hk))
      case isTrue =>
        have hfst : (batch.zip values).map (·.fst) = batch := by
          refine List.map_fst_zip ?_
          simpa using hvalues.length_eq.le
        have hread : ∀ qv ∈ batch.zip values, Read s₁ (.owner qv.fst.peer) qv.snd :=
          fun _ => (List.forall₂_iff_zip.mp (List.forall₂_map_left_iff.mp hvalues)).right
        refine (post_selectActive (S := S) (by rwa [hfst]) hread).mono fun s' active h => ?_
        rw [hfst] at h
        refine ⟨⟨h.sublist, fun q hq => ?_, fun q hq hn => ?_⟩, ?_, ?_, ?_⟩
        case refine_1 => exact (h.kept q hq).trans (hreads.resultsOf q.peer)
        case refine_2 =>
          have ⟨result, hleft⟩ := h.left q hq hn
          exact ⟨result, hreads.resultsOf q.peer ▸ hleft.results, hleft.matched, hleft.refuted⟩
        case refine_3 => exact fun σ hσ => h.seen ▸ hreads.seen σ hσ
        case refine_4 => exact h.commits.trans hreads.commits
        case refine_5 => exact fun p hp => (h.results p hp).trans (hreads.resultsOf p)

end Calls

section Loop

variable {S : Service} {s s' : State} {q : Request} {p : Peer} {batch : List Request}

-- What a call does to the requests of others.
structure Frame (batch : List Request) (s s' : State) : Prop where
  seen : ∀ σ ∈ s.seen, σ ∈ s'.seen
  results : ∀ p, p ∉ batch.map (·.peer) → s'.resultsOf p = s.resultsOf p
  commits : ∀ p, p ∉ batch.map (·.peer) → ∀ c ∈ s'.commits, c ∈ s.commits ∨ Untouched p c

theorem entries_keys (he : e ∈ q.entries) : e.key = .peer q.peer ∨ e.key = .owner q.peer := by
  rcases List.mem_cons.mp he with rfl | he
  · exact .inl rfl
  · have ⟨_, _, hentry⟩ := List.mem_map.mp he
    exact .inr (hentry ▸ rfl)

theorem untouched_of_batch (hc : c.mutation = batchMutation S batch) (hp : p ∉ batch.map (·.peer)) :
    Untouched p c := by
  intro e he
  rw [hc] at he
  have ⟨q, hq, he⟩ := List.mem_flatMap.mp he
  have hne : q.peer ≠ p := fun hn => hp (List.mem_map.mpr ⟨q, hq, hn⟩)
  rcases entries_keys he with hk | hk <;> rw [hk]
  · exact ⟨fun hk => hne (Key.peer.inj hk), nofun⟩
  · exact ⟨nofun, fun hk => hne (Key.owner.inj hk)⟩

theorem nodup_entries (hnodup : (batch.map (·.peer)).Nodup) :
    ((batchMutation S batch).entries.map (·.key)).Nodup := by
  change ((batch.flatMap (·.entries)).map (·.key)).Nodup
  induction batch
  case nil => exact List.nodup_nil
  case cons q batch hi =>
    have ⟨hq, hnodup⟩ := List.nodup_cons.mp hnodup
    rw [List.flatMap_cons, List.map_append]
    refine List.Nodup.append ?_ (hi hnodup) fun k hk hk' => ?_
    case refine_1 => cases hc : q.claim <;> simp [Request.entries, hc]
    case refine_2 =>
      have ⟨e, he, hkey⟩ := List.mem_map.mp hk
      have ⟨e', he', hkey'⟩ := List.mem_map.mp hk'
      have hother : e'.key ≠ .peer q.peer ∧ e'.key ≠ .owner q.peer :=
        untouched_of_batch (S := S)
          (c := ⟨batchMutation S batch, fun _ => none, fun _ => none⟩) rfl hq e' he'
      rw [hkey', ← hkey] at hother
      exact (entries_keys he).elim hother.left hother.right

theorem written_of_batch (hnodup : (batch.map (·.peer)).Nodup)
    (h : σ.applyMutation (batchMutation S batch) = .ok (some σ')) (hq : q ∈ batch) :
    Written ⟨batchMutation S batch, σ, σ'⟩ (transitionMutation S q) := by
  have hconditions := (KV.Typed.Store.applyMutation_eq_some h).left
  have hentries : ∀ e ∈ q.entries, e ∈ (batchMutation S batch).entries :=
    fun e he => List.mem_flatMap.mpr ⟨q, hq, he⟩
  refine ⟨h, ?_, hentries, fun e he => ?_⟩
  case refine_1 =>
    refine List.forall_mem_cons.mpr ⟨hconditions _ List.mem_cons_self,
      List.forall_mem_singleton.mpr ?_⟩
    exact hconditions _ (List.mem_cons_of_mem _ (List.mem_map_of_mem hq))
  case refine_2 =>
    have hnone : ∀ g ∈ (batchMutation S batch).groups, g.key ≠ e.key := fun _ hg => nomatch hg
    have hnil : e.key ∉ (batchMutation S batch).deleteKeys := List.not_mem_nil
    dsimp only
    rw [KV.Typed.Store.lookup_applyMutation h hnone, if_neg hnil]
    exact KV.Typed.Store.putAll_of_mem (nodup_entries hnodup) (hentries e he)

theorem Frame.refl : Frame batch s s :=
  ⟨fun _ h => h, fun _ _ => rfl, fun _ _ _ => .inl⟩

theorem Frame.of_inspection (h : Inspection S batch active s s') : Frame batch s s' where
  seen := h.seen
  results := h.results
  commits := fun _ _ _ hc => .inl (h.commits ▸ hc)

theorem Frame.trans (h₁ : Frame batch s s₁) (h₂ : Frame batch s₁ s') : Frame batch s s' where
  seen := fun σ hσ => h₂.seen σ (h₁.seen σ hσ)
  results := fun p hp => (h₂.results p hp).trans (h₁.results p hp)
  commits := fun p hp c hc => (h₂.commits p hp c hc).elim (h₁.commits p hp c) .inr

theorem Frame.widen (h : Frame active s s') (hsub : active.Sublist batch) : Frame batch s s' where
  seen := h.seen
  results := fun p hp => h.results p fun hn => hp ((hsub.map _).subset hn)
  commits := fun p hp => h.commits p fun hn => hp ((hsub.map _).subset hn)

-- Nothing has happened to the requests of the batch yet.
structure Fresh (batch : List Request) (s : State) : Prop where
  results : ∀ q ∈ batch, s.resultsOf q.peer = []
  commits : ∀ q ∈ batch, ∀ c ∈ s.commits, Untouched q.peer c

-- Every request of the batch has one result, which is right.
def Settled (S : Service) (batch : List Request) (s : State) : Prop :=
  ∀ q ∈ batch, ∃ result, s.resultsOf q.peer = [result] ∧ Accurate S s q result

theorem Fresh.inspect (h : Fresh batch s)
    (hi : Inspection S batch active { s with seen := seen } s') : Fresh active s' where
  results := fun q hq => (hi.kept q hq).trans (h.results q (hi.sublist.subset hq))
  commits := fun q hq c hc => h.commits q (hi.sublist.subset hq) c (hi.commits ▸ hc)

-- The requests that were left out keep their results while the others are tried again.
theorem Fresh.settled (h : Fresh batch s) (hnodup : (batch.map (·.peer)).Nodup)
    (hi : Inspection S batch active { s with seen := seen } s₁) (hframe : Frame active s₁ s')
    (hsettled : Settled S active s') : Settled S batch s' := by
  intro q hq
  by_cases hactive : q ∈ active
  case pos => exact hsettled q hactive
  case neg =>
    have hother : q.peer ∉ active.map (·.peer) := by
      intro hn
      have ⟨q', hq', he⟩ := List.mem_map.mp hn
      have := List.inj_on_of_nodup_map hnodup (hi.sublist.subset hq') hq he
      exact hactive (this ▸ hq')
    have ⟨result, hleft⟩ := hi.left q hq hactive
    refine ⟨result, ?_, fun hm => ?_, fun hu => ⟨?_, fun c hc => ?_⟩⟩
    case refine_1 =>
      rw [hframe.results _ hother, hleft.results]
      exact congrArg _ (h.results q hq)
    case refine_2 => nomatch hleft.matched.symm.trans hm
    case refine_3 =>
      have ⟨σ, hσ, hn⟩ := hleft.refuted (hu ▸ rfl)
      exact ⟨σ, hframe.seen σ hσ, hn⟩
    case refine_4 =>
      exact (hframe.commits _ hother c hc).elim
        (fun hc => h.commits q hq c (hi.commits ▸ hc)) fun hc => hc

-- All requests of the batch get the same result.
theorem post_settle (hnodup : (batch.map (·.peer)).Nodup) (hfresh : Fresh batch s)
    (hframe : Frame batch s s₁) (hresults : s₁.results = s.results)
    (ha : ∀ q ∈ batch, Accurate S s₁ q ⟨matched, err⟩) :
    (completeTransitions matched err batch >>= fun _ => pure (some ())).Post Does
      (fun s' r => Frame batch s s' ∧ (r = some () → Settled S batch s')) s₁ := by
  refine (post_completeTransitions hnodup).bind fun s' _ ⟨hreports, hsent⟩ =>
    ⟨hframe.trans ?_, fun _ q hq => ?_⟩
  case refine_1 =>
    exact ⟨fun _ hσ => hreports.seen ▸ hσ, hreports.results, fun _ _ _ hc =>
      .inl (hreports.commits ▸ hc)⟩
  case refine_2 =>
    have hnone : s₁.resultsOf q.peer = [] := by
      unfold State.resultsOf
      rw [hresults]
      exact hfresh.results q hq
    refine ⟨⟨matched, err⟩, hnone ▸ hsent q hq, fun hm => ?_, fun hu => ?_⟩
    case refine_1 => exact hreports.commits ▸ (ha q hq).matched hm
    case refine_2 =>
      have hrefused := (ha q hq).unmatched hu
      exact ⟨hreports.seen ▸ hrefused.unmatched, hreports.commits ▸ hrefused.unwritten⟩

theorem not_holds_of_unmatched (h : σ.applyMutation (batchMutation S [q]) = .ok none) :
    ¬Holds σ (transitionMutation S q) :=
  fun hn => KV.Typed.Store.applyMutation_ne_none (m := batchMutation S [q]) hn h

-- The commit of a batch leaves others alone.
theorem frame_commit :
    Frame batch s
      { s with commits := ⟨batchMutation S batch, σ, σ'⟩ :: s.commits, seen := σ :: s.seen } where
  seen := fun _ => List.mem_cons_of_mem σ
  results := fun _ _ => rfl
  commits := fun p hp c hc => by
    rcases List.mem_cons.mp hc with rfl | hc
    · exact .inr (untouched_of_batch rfl hp)
    · exact .inl hc

theorem accurate_err : Accurate S s q ⟨false, some err⟩ :=
  ⟨nofun, nofun⟩

theorem post_commitTransitions {fuel : Nat} (hnodup : (batch.map (·.peer)).Nodup)
    (hfresh : Fresh batch s) :
    (commitTransitions S fuel batch).Post Does
      (fun s' r => Frame batch s s' ∧ (r = some () → Settled S batch s')) s := by
  induction fuel generalizing batch s
  case zero =>
    match batch with
    | [] => exact ⟨.refl, fun _ _ hq => nomatch hq⟩
    | _ :: _ => exact ⟨.refl, fun hr => nomatch hr⟩
  case succ hi =>
    match hbatch : batch with
    | [] => exact ⟨.refl, fun _ _ hq => nomatch hq⟩
    | first :: _ =>
      unfold commitTransitions
      rw [← hbatch] at hnodup hfresh ⊢
      refine post_act fun ctxErr s₁ h => ?_
      cases h
      split
      case h_1 => exact post_settle hnodup hfresh .refl rfl fun _ _ => accurate_err
      case h_2 =>
        refine post_act fun matched s₁ h => ?_
        cases h
        case applyFailed =>
          exact post_settle hnodup hfresh .refl rfl fun _ _ => accurate_err
        case replyLost =>
          exact post_settle hnodup hfresh frame_commit rfl fun _ _ => accurate_err
        case applied h =>
          refine post_settle hnodup hfresh frame_commit rfl fun q hq => ⟨fun _ => ?_, nofun⟩
          exact ⟨_, List.mem_cons_self, written_of_batch hnodup h hq⟩
        case unmatched σ h =>
          have hseen : Frame batch s { s with seen := σ :: s.seen } :=
            ⟨fun _ => List.mem_cons_of_mem σ, fun _ _ => rfl, fun _ _ _ => .inl⟩
          dsimp only
          split
          case isTrue hone =>
            refine post_settle hnodup hfresh hseen rfl fun q hq =>
              ⟨nofun, fun _ => ⟨?_, hfresh.commits q hq⟩⟩
            have hlen : batch.length = 1 := by simpa using hone
            have ⟨q', hq'⟩ := List.length_eq_one_iff.mp hlen
            obtain rfl : q = q' := List.mem_singleton.mp (hq' ▸ hq)
            exact ⟨σ, List.mem_cons_self, not_holds_of_unmatched (hq' ▸ h)⟩
          case isFalse =>
            refine (post_inspect hnodup).bind fun s₂ active hinspect => ?_
            have hnodup' := hnodup.sublist (hinspect.sublist.map _)
            refine (hi hnodup' (hfresh.inspect hinspect)).mono fun s' r ⟨hframe, hsettled⟩ =>
              ⟨?_, fun hr => ?_⟩
            case refine_1 =>
              exact (hseen.trans (.of_inspection hinspect)).trans (hframe.widen hinspect.sublist)
            case refine_2 => exact hfresh.settled hnodup hinspect hframe (hsettled hr)

-- A batch for distinct peers, when its call returns.
theorem batch_as_transitions {fuel : Nat} (hnodup : (batch.map (·.peer)).Nodup) :
    (commitTransitions S fuel batch).Post Does (fun s r => r = some () →
      (∀ q ∈ batch, ∃ result, s.resultsOf q.peer = [result] ∧ Accurate S s q result) ∧
        ∀ p, p ∉ batch.map (·.peer) → s.resultsOf p = []) {} := by
  have hfresh : Fresh batch {} := ⟨fun _ _ => rfl, fun _ _ _ hc => nomatch hc⟩
  exact (post_commitTransitions hnodup hfresh).mono fun s r ⟨hframe, hsettled⟩ hr =>
    ⟨hsettled hr, hframe.results⟩

end Loop

section Samples

def Service.sample : Service where
  server := [1]
  generation := [2]

-- The peer has another owner than the request expects.
def superseded : Request where
  peer := [3]
  expected := none
  value := [4]
  claim := some [2, 3]

def current : Request where
  peer := [5]
  expected := none
  value := [6]
  claim := some [2, 5]

def Store.sample : Store
  | .generation _ => some (.record [2])
  | .owner [3] => some (.record [0])
  | _ => none

theorem may_act {α : Type} {Q : State → α → Prop} {next : Reply a → Call α} (hd : Does a s r s')
    (h : (next r).May Does Q s') : Program.May Does Q s (.act a next) :=
  ⟨r, s', hd, h⟩

theorem batch_as_transitions_superseded :
    (commitTransitions .sample 2 [superseded, current]).May Does (fun s r => r = some () ∧
      s.resultsOf superseded.peer = [⟨false, none⟩] ∧ s.resultsOf current.peer =
        [⟨true, none⟩]) {} ∧
    (commitTransitions .sample 2 [superseded, current]).Post Does (fun s r => r = some () →
      (∀ q ∈ [superseded, current], ∃ result, s.resultsOf q.peer = [result] ∧
      Accurate .sample s q result) ∧
        ∀ p, p ∉ [superseded, current].map (·.peer) → s.resultsOf p = []) {} := by
  refine ⟨?_, batch_as_transitions (by decide)⟩
  refine may_act (.ctxErr none) (may_act (.unmatched (σ := .sample) rfl) ?_)
  refine may_act (.batchGet (σ := .sample))
    (may_act (.batchGet (σ := .sample)) (may_act (.batchGet (σ := .sample)) ?_))
  refine may_act .report
    (may_act (.ctxErr none) (may_act (.applied (σ := .sample) rfl) (may_act .report ?_)))
  exact ⟨rfl, rfl, rfl⟩

-- The mutation takes place, and its reply is lost.
theorem written_though_failed : ¬(commitTransitions .sample 1 [current]).Post Does
    (fun s r => r = some () →
    ∀ q ∈ [current], ∀ result, s.resultsOf q.peer = [result] → result.matched = false →
      ∀ c ∈ s.commits, Untouched q.peer c) {} := by
  refine Program.May.not_post ?_
  refine may_act (.ctxErr none) (may_act (.replyLost (.text "connection reset") (σ := .sample) rfl)
    (may_act .report ?_))
  intro hn
  have huntouched := hn rfl current List.mem_cons_self _ rfl rfl _ List.mem_cons_self
  exact (huntouched _ List.mem_cons_self).left rfl

end Samples

end GizClaw.Presence

import GizClaw.Lib.Sequential
import GizClaw.PeerUsage.Theorems.Invariant

-- Calls that come one after another while a clock that recorders and table share goes on. What the
-- recorders hold passes the checks of the table, unless a model identifier is blank or the window
-- of retention moves on in the middle of a flush.

namespace GizClaw.PeerUsage

open Interleaving
open PendingDeletion (Text ascii)

theorem truncateHour_mono {t t' : Int} (h : t ≤ t') : truncateHour t ≤ truncateHour t' := by
  change (t - t % 3600000000000 : Int) ≤ t' - t' % 3600000000000
  omega

theorem truncateHour_le (t : Int) : truncateHour t ≤ t := by
  change (t - t % 3600000000000 : Int) ≤ t
  omega

theorem truncateHour_truncateHour (t : Int) : truncateHour (truncateHour t) = truncateHour t := by
  change (t - t % 3600000000000 - (t - t % 3600000000000) % 3600000000000 : Int) =
    t - t % 3600000000000
  omega

theorem cutoff_mono (h : t ≤ t') : cutoff t ≤ cutoff t' :=
  Int.sub_le_sub_right (truncateHour_mono h) retention

-- The last reading of the clock comes with the state.
structure Timed where
  state : State
  clock : Time

section Clock

variable (trimSpace : Text → Text) (identities : Nat → Text) (dialect : Dialect)
  (first last clock : Time)

-- A clock that never goes back and that does not get past the last reading.
def Ticks (clock' : Time) : (a : Act) → Reply a → Prop
  | .now, now => clock ≤ now ∧ now ≤ last ∧ clock' = now
  | _, _ => clock' = clock

def Timely : Exec Act Reply Timed :=
  fun a x r x' => Does identities dialect a x.state r x'.state ∧ Ticks last x.clock x'.clock a r

def Succeeds : (a : Act) → Reply a → Prop
  | .write .., r | .maintain _, r => r = .ok ()
  | _, _ => True

-- The database does not fail.
def Healthy : Exec Act Reply Timed :=
  fun a x r x' => Timely identities dialect last a x r x' ∧ Succeeds a r

-- A report for a model is named by something that is not all blank.
def Op.Named : Op → Prop
  | record _ _ modelID _ => modelID ≠ [] → trimSpace modelID ≠ []
  | _ => True

-- Calls one after another, whatever their results are.
def calls : List Op → Program Act Reply Unit
  | [] => pure ()
  | op :: ops => program trimSpace op >>= fun _ => calls ops

-- What the checks ask of a key.
structure BucketKey.Fit (key : BucketKey) : Prop where
  peer : key.peer ≠ 0
  model : trimSpace key.model ≠ []
  length : key.model.length ≤ 256
  hour : ∃ t, first ≤ t ∧ t ≤ clock ∧ key.hour = truncateHour t

def Recorder.Fit (identity : Text) (r : Recorder) : Prop :=
  ∀ b ∈ r.buckets, b.key.Fit trimSpace first clock ∧
    ∃ n ≤ r.sequence, b.writer = writerID identity n

structure Fits (recorders : Nat → Recorder) : Prop where
  first_le : first ≤ clock
  recorders : ∀ i, (recorders i).Fit trimSpace first clock (identities i)

abbrev Timed.Fits (x : Timed) : Prop :=
  PeerUsage.Fits trimSpace identities first x.clock x.state.recorders

end Clock

section Fits

variable {trimSpace : Text → Text} {identities : Nat → Text} {dialect : Dialect}
  {first last clock : Time} {x : Timed}

theorem Recorder.Fit.mono {r r' : Recorder} (h : r.Fit trimSpace first clock identity)
    (hc : clock ≤ clock') (hs : r.sequence ≤ r'.sequence)
    (hr : ∀ b' ∈ r'.buckets, ∃ b ∈ r.buckets, b.row = b'.row) :
    r'.Fit trimSpace first clock' identity := by
  intro b' hb'
  have ⟨b, hb, hrow⟩ := hr b' hb'
  have ⟨hkey, n, hn, hw⟩ := h b hb
  have ⟨t, hfirst, ht, hh⟩ := hkey.hour
  rw [← show b.key = b'.key from congrArg RowKey.key hrow,
    ← show b.writer = b'.writer from congrArg RowKey.writer hrow]
  exact ⟨{ hkey with hour := ⟨t, hfirst, ht.trans hc, hh⟩ }, n, hn.trans hs, hw⟩

theorem Recorder.Fit.bucket {r : Recorder} (h : r.Fit trimSpace first clock identity)
    (hk : key.Fit trimSpace first clock) :
    (r.bucket identity key).fst.Fit trimSpace first clock identity := by
  unfold Recorder.bucket
  split
  case h_1 => exact h
  case h_2 =>
    intro b hb
    rcases List.mem_append.mp hb with hb | hb
    case inl =>
      have ⟨hkey, n, hn, hw⟩ := h b hb
      exact ⟨hkey, n, Nat.le_succ_of_le hn, hw⟩
    case inr =>
      obtain rfl := List.mem_singleton.mp hb
      exact ⟨hk, r.sequence + 1, le_rfl, rfl⟩

theorem Recorder.Fit.record {r : Recorder} (h : r.Fit trimSpace first clock identity)
    (hk : key.Fit trimSpace first clock) (total : Nat) :
    (r.record identity key total).snd.Fit trimSpace first clock identity := by
  unfold Recorder.record
  split
  case isTrue => exact h
  case isFalse =>
    dsimp only
    split
    case isTrue => exact h.bucket hk
    case isFalse =>
      refine (h.bucket hk).mono le_rfl le_rfl fun b' hb' => ?_
      have ⟨b, hb, he⟩ := List.mem_map.mp hb'
      exact ⟨b, hb, by rw [← he]; split <;> rfl⟩

variable {recorders : Nat → Recorder}

theorem Fits.tick {clock' : Time} (h : Fits trimSpace identities first clock recorders)
    (hc : clock ≤ clock') : Fits trimSpace identities first clock' recorders where
  first_le := h.first_le.trans hc
  recorders := fun i => (h.recorders i).mono hc le_rfl fun b hb => ⟨b, hb, rfl⟩

theorem Fits.update (h : Fits trimSpace identities first clock recorders)
    (hr : r.Fit trimSpace first clock (identities i)) :
    Fits trimSpace identities first clock (Function.update recorders i r) where
  first_le := h.first_le
  recorders := (Function.forall_update_iff _ fun j => Recorder.Fit trimSpace first clock
    (identities j)).mpr ⟨hr, fun j _ => h.recorders j⟩

def Unrecorded : Act → Prop
  | .record .. => False
  | _ => True

theorem Fits.does {r : Reply a} (ha : Unrecorded a) (h : x.Fits trimSpace identities first)
    (hd : Timely identities dialect last a x r x') : x'.Fits trimSpace identities first := by
  obtain ⟨s, c⟩ := x
  obtain ⟨s', c'⟩ := x'
  obtain ⟨hd, ht⟩ := hd
  cases a
  case record => exact ha.elim
  case now =>
    obtain ⟨hle, _, rfl⟩ := ht
    obtain rfl : s' = s := hd
    exact h.tick hle
  all_goals obtain rfl : c' = c := ht
  case close i =>
    subst hd
    exact h.update (h.recorders i)
  case leave i start =>
    subst hd
    cases start <;> exact h.update (h.recorders i)
  case enter i =>
    cases hd
    case cancelled => exact h
    case entered => exact h.update (h.recorders i)
  case snapshot i cutoff =>
    obtain rfl : s' = (s.snapshot i cutoff).snd := congrArg Prod.snd hd
    refine h.update ((h.recorders i).mono le_rfl le_rfl fun b hb => ⟨b, ?_, rfl⟩)
    exact List.mem_of_mem_filter hb
  case write | maintain => cases hd <;> exact h
  case acknowledge i items hour =>
    subst hd
    refine h.update ((h.recorders i).mono le_rfl le_rfl fun b' hb' => ?_)
    have ⟨b, hb, he⟩ := List.mem_map.mp (List.mem_of_mem_filter hb')
    exact ⟨b, hb, by rw [← he, foldl_acknowledge_row]⟩

theorem unrecorded_act (ha : Unrecorded a) : AllOk Unrecorded (act a) :=
  ⟨ha, fun _ => trivial⟩

theorem unrecorded_checkAll (items : List Snapshot) :
    AllOk Unrecorded (checkAll trimSpace items) := by
  induction items
  case nil => exact .pure
  case cons hi =>
    refine .bind (unrecorded_act trivial) fun _ => .bind (unrecorded_act trivial) fun _ => ?_
    exact .bindLift fun _ _ => hi

theorem unrecorded_drain (i : Nat) : AllOk Unrecorded (drain trimSpace i) := by
  refine .bind (unrecorded_act trivial) fun now => .bind (unrecorded_act trivial) fun items => ?_
  split
  case isTrue => exact .pure
  case isFalse hi =>
    refine .bind ?_ fun _ => .bind (unrecorded_act trivial) fun _ => unrecorded_act trivial
    unfold write
    rw [if_neg hi]
    refine .bind (unrecorded_checkAll items) fun _ => .bind (unrecorded_act trivial) fun _ => ?_
    exact .bindLift fun _ _ => .bind (unrecorded_act trivial) fun _ => .lift

theorem unrecorded_flush (i : Nat) : AllOk Unrecorded (flush trimSpace i) := by
  refine .bind (unrecorded_act trivial) fun start => ?_
  cases start
  case none => exact .throw
  case some =>
    refine .bind (.tryCatch (unrecorded_drain i) fun e => ?_) fun _ => unrecorded_act trivial
    exact .bind (unrecorded_act trivial) fun _ => .throw

theorem State.recorders_record (s : State) (identity : Text) (i : Nat) (key : BucketKey)
    (total : Nat) : (s.record identity i key total).snd.recorders =
      Function.update s.recorders i ((s.recorders i).record identity key total).snd := by
  unfold State.record
  dsimp only
  split <;> rfl

theorem record_fits {peer : PublicKey} (hm : modelID ≠ [] → trimSpace modelID ≠ [])
    (h : x.Fits trimSpace identities first) :
    (record i peer modelID r).run.Post (Timely identities dialect last)
      (fun x _ => x.Fits trimSpace identities first) x := by
  unfold record
  cases hc : checkReport peer modelID r
  case error => exact h
  case ok total =>
    unfold checkReport at hc
    split at hc
    case isTrue => cases hc
    case isFalse hp =>
      push Not at hp
      change Program.Post _ _ _ (ExceptT.run (ite ..))
      split
      case isTrue => exact h
      case isFalse =>
        intro now x' ⟨hs, hle, _, hnow⟩ r x'' ⟨hd, ht⟩
        have h' := h.tick hle
        have hkey : BucketKey.Fit trimSpace first now ⟨peer, modelID, truncateHour now⟩ :=
          ⟨hp.left, hm hp.right.left, hp.right.right, now, h'.first_le, le_rfl, rfl⟩
        have hx : x''.state = _ := congrArg Prod.snd hd
        change Fits trimSpace identities first x''.clock x''.state.recorders
        rw [show x''.clock = now from ht.trans hnow, hx, State.recorders_record,
          show x'.state = x.state from hs]
        exact h'.update ((h'.recorders i).record hkey total)

theorem program_fits (op : Op) (hop : op.Named trimSpace) (h : x.Fits trimSpace identities first) :
    (program trimSpace op).Post (Timely identities dialect last)
      (fun x _ => x.Fits trimSpace identities first) x := by
  cases op
  case record => exact record_fits hop h
  case flush i => exact .of_all (unrecorded_flush i) h fun a x r x' ha hs => hs.does ha
  case close i =>
    refine .of_all ?_ h fun a x r x' ha hs => hs.does ha
    exact AllOk.bind (unrecorded_act trivial) fun _ => unrecorded_flush i
  case maintain =>
    refine .of_all ?_ h fun a x r x' ha hs => hs.does ha
    refine AllOk.bind (unrecorded_act trivial) fun _ => .bindLift fun _ _ => ?_
    exact .bind (unrecorded_act trivial) fun _ => .lift

theorem calls_fits (ops : List Op) (hops : ∀ op ∈ ops, op.Named trimSpace)
    (h : x.Fits trimSpace identities first) :
    (calls trimSpace ops).Post (Timely identities dialect last)
      (fun x _ => x.Fits trimSpace identities first) x := by
  induction ops generalizing x
  case nil => exact h
  case cons op ops hi =>
    have ⟨hop, hops⟩ := List.forall_mem_cons.mp hops
    exact (program_fits op hop h).bind fun x _ h => hi hops h

end Fits

theorem length_writerID_le (hid : identity.length ≤ 100)
    (hn : n < 2 ^ 64) : (writerID identity n).length ≤ 128 := by
  have hd : (decimal n).length ≤ 20 := by
    unfold decimal
    split
    case isTrue => decide
    case isFalse =>
      rw [List.length_map, List.length_reverse]
      exact (Nat.digits_length_le_iff (by decide) n).mpr (hn.trans (by decide))
  simp only [writerID, List.length_append, List.length_cons]
  omega

section Succeeds

variable {trimSpace : Text → Text} {identities : Nat → Text} {dialect : Dialect}
  {first last clock : Time} {x : Timed} {items : List Snapshot}

-- What the checks ask of a snapshot as long as the clock does not get past the last reading.
structure Snapshot.Fit (trimSpace : Text → Text) (first last clock : Time) (item : Snapshot) :
    Prop where
  key : item.key.Fit trimSpace first clock
  writer : trimSpace item.writerID ≠ []
  length : item.writerID.length ≤ 128
  retained : cutoff last ≤ item.key.hour

theorem cutoff_le (t : Time) : cutoff t ≤ truncateHour t :=
  Int.sub_le_self _ (by decide)

variable (hfirst : -2 ^ 63 ≤ cutoff first) (hlast : last ≤ maxInt64)

include hfirst hlast

theorem Snapshot.Fit.check {item : Snapshot} (h : item.Fit trimSpace first last clock)
    (hnow : now ≤ last) (hc : clock ≤ now')
    (hnow' : now' ≤ last) : item.check trimSpace now now' = .ok () := by
  have ⟨t, hft, htc, hh⟩ := h.key.hour
  have hfit : ¬(item.key.peer = 0 ∨ trimSpace item.key.model = [] ∨ 256 < item.key.model.length ∨
      trimSpace item.writerID = [] ∨ 128 < item.writerID.length) := by
    push Not
    exact ⟨h.key.peer, h.key.model, h.key.length, h.writer, h.length⟩
  have hret : ¬item.key.hour < cutoff now := not_lt.mpr ((cutoff_mono hnow).trans h.retained)
  have hfuture : ¬truncateHour now' < item.key.hour :=
    not_lt.mpr (hh ▸ truncateHour_mono (htc.trans hc))
  have hsql : sqlUnixNano item.key.hour := by
    refine decide_eq_true ⟨?_, ?_⟩
    · exact hfirst.trans (((cutoff_le first).trans (truncateHour_mono hft)).trans_eq hh.symm)
    · exact hh ▸ (truncateHour_le t).trans (htc.trans (hc.trans (hnow'.trans hlast)))
  unfold Snapshot.check
  rw [if_neg hfit, if_neg (not_not.mpr (hh ▸ (truncateHour_truncateHour t).symm)), if_neg hret,
    if_neg hfuture, if_neg (by simp [hsql])]

theorem checkCutoff_ok (hf : first ≤ now) (hl : now ≤ last) :
    checkCutoff now = .ok (cutoff now) := by
  refine if_pos (decide_eq_true ⟨hfirst.trans (cutoff_mono hf), ?_⟩)
  exact (cutoff_le now).trans ((truncateHour_le now).trans (hl.trans hlast))

omit hfirst hlast in
theorem act_ok (h : ∀ r x', Healthy identities dialect last a x r x' → Q x' r) :
    PostOk (Healthy identities dialect last) Q x (act a) :=
  fun r x' hd => ⟨r, rfl, h r x' hd⟩

omit hfirst hlast in
theorem now_ok (h : clock ≤ x.clock) : PostOk (Healthy identities dialect last)
    (fun x now => clock ≤ now ∧ now ≤ last ∧ x.clock = now) x (act .now) :=
  act_ok fun _ _ hd => hd.left.right.imp_left h.trans

theorem checkAll_ok (hc : clock ≤ x.clock)
    (h : ∀ item ∈ items, item.Fit trimSpace first last clock) :
    PostOk (Healthy identities dialect last) (fun x _ => clock ≤ x.clock) x
      (checkAll trimSpace items) := by
  induction items generalizing x
  case nil => exact .pure hc
  case cons hi =>
    have ⟨hitem, hitems⟩ := List.forall_mem_cons.mp h
    refine .bind (now_ok hc) fun x now ⟨hc, hnow, hx⟩ => ?_
    refine .bind (now_ok (hx ▸ hc)) fun x now' ⟨hc, hnow', hx⟩ => ?_
    rw [hitem.check hfirst hlast hnow hc hnow']
    exact hi (hx ▸ hc) hitems

theorem write_ok (hf : first ≤ clock) (hc : clock ≤ x.clock)
    (h : ∀ item ∈ items, item.Fit trimSpace first last clock) :
    PostOk (Healthy identities dialect last) Any x (write trimSpace items) := by
  unfold write
  split
  case isTrue => exact .pure trivial
  case isFalse =>
    refine .bind (checkAll_ok hfirst hlast hc h) fun x _ hc => ?_
    refine .bind (now_ok hc) fun x now ⟨hc, hnow, _⟩ => ?_
    rw [checkCutoff_ok hfirst hlast (hf.trans hc) hnow]
    refine .bind (Q := fun _ (r : Except Err Unit) => r = .ok ())
      (act_ok fun _ _ hd => hd.right) fun x r hr => ?_
    exact .lift ⟨(), hr, trivial⟩

variable (hid : ∀ i, (identities i).length ≤ 100)
  (htrim : ∀ text, dash ∈ text → trimSpace text ≠ [])

include hid htrim

theorem drain_ok (h : x.Fits trimSpace identities first) (hseq : x.state.sequence i < 2 ^ 64)
    (hret : ∀ b ∈ x.state.buckets i, cutoff x.clock ≤ b.key.hour → cutoff last ≤ b.key.hour) :
    PostOk (Healthy identities dialect last) Any x (drain trimSpace i) := by
  refine .bind (act_ok (Q := fun x' now => x.clock ≤ now ∧ now ≤ last ∧ x'.clock = now ∧
    x'.state = x.state) fun now x' hd => ?_) fun x' now ⟨hle, hnow, hx, hs⟩ => ?_
  · have ⟨hle, hnow, hx⟩ := hd.left.right
    exact ⟨hle, hnow, hx, hd.left.left⟩
  have h' := h.tick hle
  refine .bind (act_ok (Q := fun x' items => x'.clock = now ∧
    ∀ item ∈ items, item.Fit trimSpace first last now) fun items x'' hd => ?snapshot)
    fun x'' items ⟨hx, hitems⟩ => ?rest
  case snapshot =>
    refine ⟨hd.left.right.trans hx, fun item hi => ?_⟩
    rw [show items = _ from congrArg Prod.fst hd.left.left, hs] at hi
    have ⟨b, hb, hi⟩ := List.mem_map.mp hi
    have hk := List.mem_filter.mp (List.mem_of_mem_filter hb)
    have ⟨hkey, n, hn, hw⟩ := h'.recorders i b hk.left
    obtain rfl : b.snapshot = item := hi
    refine ⟨hkey, ?_, ?_, ?_⟩
    · exact (show b.snapshot.writerID = _ from hw) ▸
        htrim _ (List.mem_append_right _ List.mem_cons_self)
    · exact (show b.snapshot.writerID = _ from hw) ▸
        length_writerID_le (hid i) (hn.trans_lt hseq)
    · exact hret b hk.left ((cutoff_mono hle).trans (not_lt.mp (of_decide_eq_true hk.right)))
  case rest =>
    split
    case isTrue => exact .pure trivial
    case isFalse =>
      refine .bind (write_ok hfirst hlast h'.first_le hx.ge hitems) fun x _ _ => ?_
      refine .bind (now_ok le_rfl) fun x now _ => ?_
      exact act_ok fun _ _ _ => trivial

end Succeeds

-- Whatever has been called, a flush succeeds or its caller gives up, unless an hour that is still
-- in memory gets out of the window while the flush is going on. Sequence numbers have 64 bits, and
-- times fit into signed nanoseconds.
theorem flush_succeeds {trimSpace : Text → Text} {identities : Nat → Text} {dialect : Dialect}
    {first last : Time} {ops : List Op} (htrim : ∀ text, dash ∈ text → trimSpace text ≠ [])
    (hid : ∀ i, (identities i).length ≤ 100) (hfirst : -2 ^ 63 ≤ cutoff first)
    (hlast : last ≤ maxInt64) (hops : ∀ op ∈ ops, op.Named trimSpace) :
    (calls trimSpace ops).Post (Timely identities dialect last) (fun x _ =>
      ∀ i stop, stop ≤ last → x.state.sequence i < 2 ^ 64 →
      (∀ b ∈ x.state.buckets i, cutoff x.clock ≤ b.key.hour → cutoff stop ≤ b.key.hour) →
      (flush trimSpace i).run.Post (Healthy identities dialect stop)
        (fun _ r => r = .ok () ∨ r = .error .cancelled) x) ⟨.init, first⟩ := by
  have hinit : Fits trimSpace identities first first State.init.recorders :=
    ⟨le_rfl, fun i b hb => nomatch hb⟩
  refine (calls_fits ops hops hinit).mono ?_
  intro ⟨s, c⟩ _ h i stop hstop hseq hret start ⟨s', c'⟩ ⟨⟨hd, hc⟩, _⟩
  obtain rfl : c' = c := hc
  cases hd
  case cancelled => exact .inr rfl
  case entered _ =>
    refine PostOk.bindPost (Q := Any) (.tryCatch ?_) fun x _ _ r x' _ => .inl rfl
    refine drain_ok hfirst (hstop.trans hlast) hid htrim
      (h.update (r := { s.recorders i with gate := true }) (h.recorders i)) ?_ ?_
    · simpa [State.sequence] using hseq
    · simpa [State.buckets] using hret

namespace Sample

-- Blanks are what there is to trim.
def trimSpace (text : Text) : Text :=
  (text.dropWhile (· = 32)).rdropWhile (· = 32)

theorem trimSpace_ne_nil (text : Text) (h : dash ∈ text) : trimSpace text ≠ [] := by
  intro hnil
  rw [← List.takeWhile_append_dropWhile (p := (· = 32)) (l := text)] at h
  rcases List.mem_append.mp h with h | h
  case inl => exact absurd (List.mem_takeWhile_imp h) (by decide)
  case inr => exact absurd (List.rdropWhile_eq_nil_iff.mp hnil dash h) (by decide)

-- The clock stands still.
def performAt (a : Act) (x : Timed) : Option (Reply a × Timed) :=
  (perform (fun _ => []) .sqlite x.clock a x.state).map fun (r, s) => (r, ⟨s, x.clock⟩)

theorem healthy_of_performAt (hx : x.clock ≤ last) (h : performAt a x = some (r, x')) :
    Healthy (fun _ => []) .sqlite last a x r x' ∧ x'.clock ≤ last := by
  have ⟨(r, s), hp, he⟩ := Option.map_eq_some_iff.mp h
  cases he
  refine ⟨⟨⟨does_of_perform _ _ _ _ _ _ _ hp, ?_⟩, ?_⟩, hx⟩
  · cases a
    case now => cases hp; exact ⟨le_rfl, hx, rfl⟩
    all_goals rfl
  · cases a
    case write | maintain => cases hp; rfl
    all_goals trivial

def reports (model : String) : List Op :=
  [.record 0 1 (ascii "m") ⟨1, 0, 0⟩, .record 0 2 (ascii model) ⟨1, 0, 0⟩]

end Sample

-- One report names its model by a blank, and what others have reported is not written either.
theorem flush_blocked :
    (calls Sample.trimSpace (Sample.reports " ") >>= fun _ => (flush Sample.trimSpace 0).run).May
      (Healthy (fun _ => []) .sqlite 0) (fun x r => (r, x.state.table) =
        (.error (.text "peerusage: invalid hourly snapshot"), [])) ⟨.init, 0⟩ :=
  .of_play (I := fun x => x.clock ≤ 0) (fun _ _ _ _ => Sample.healthy_of_performAt) le_rfl
    (by decide +kernel)

theorem flush_succeeds_two : ∃ x : Timed, (x.state.buckets 0).length = 2 ∧
    (flush Sample.trimSpace 0).run.Post (Healthy (fun _ => []) .sqlite 0)
      (fun _ r => r = .ok () ∨ r = .error .cancelled) x := by
  have hrun : (calls Sample.trimSpace (Sample.reports "n")).May
      (Timely (fun _ => []) .sqlite 0) (fun x _ => (x.clock, x.state.sequence 0,
        (x.state.buckets 0).length) = (0, 2, 2)) ⟨.init, 0⟩ :=
    .of_play (I := fun x => x.clock ≤ 0)
      (fun _ _ _ _ hx h => have ⟨hd, hx⟩ := Sample.healthy_of_performAt hx h; ⟨hd.left, hx⟩)
      le_rfl (by decide +kernel)
  have ⟨x, _, hx, h⟩ := hrun.post (flush_succeeds Sample.trimSpace_ne_nil (fun _ => by decide)
    (by decide) (by decide) (by simp [Sample.reports, Op.Named]; decide))
  simp only [Prod.mk.injEq] at hx
  refine ⟨x, hx.right.right, h 0 0 le_rfl ?_ ?_⟩
  · omega
  · rw [hx.left]; exact fun _ _ h => h

end GizClaw.PeerUsage

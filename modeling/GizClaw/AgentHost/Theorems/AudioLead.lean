import GizClaw.AgentHost.AudioLead

-- What the trimmer drops is a bounded part of the quiet lead-in, as long as the chunks last whole
-- nanoseconds. Otherwise the time that was dropped is rounded down, and the bound is never met.

namespace GizClaw.AgentHost

open AudioLeadTrimmer (trim trimData)

variable {f : Format} {n : Nat} {data input : Bytes} {fb offset : Nat}

attribute [local simp] trim audibleFrom

section Quiet

@[local simp]
def quiet : Bytes → Bool
  | lo :: hi :: data => !audible lo hi && quiet data
  | _ => true

theorem audibleFrom_eq_none_iff : audibleFrom fb offset data = none ↔ quiet data := by
  induction data using quiet.induct generalizing offset
  case case1 lo hi data ih => by_cases h : audible lo hi <;> simp [h, ih]
  case case2 data h =>
    unfold audibleFrom quiet
    split
    case h_1 lo hi data => exact absurd rfl (h lo hi data)
    case h_2 => simp

-- The first audible sample, and the quiet ones in front of it.
theorem audibleFrom_eq_some (h : audibleFrom fb offset data = some onset) :
    ∃ before lo hi rest, data = before ++ lo :: hi :: rest ∧ quiet before ∧ audible lo hi ∧
      2 ∣ before.length ∧ onset = (offset + before.length) - (offset + before.length) % fb := by
  induction data using quiet.induct generalizing offset
  case case1 lo hi data ih =>
    unfold audibleFrom at h
    split at h
    case isTrue ha => exact ⟨[], lo, hi, data, rfl, rfl, ha, dvd_zero 2, (Option.some.inj h).symm⟩
    case isFalse ha =>
      have ⟨before, l, g, rest, hd, hq, hb, heven, ho⟩ := ih h
      have hl : offset + (lo :: hi :: before).length = offset + 2 + before.length := by
        simp only [List.length_cons]
        omega
      refine ⟨lo :: hi :: before, l, g, rest, by rw [hd]; rfl, ?_, hb, ?_, by rw [hl]; exact ho⟩
      · simp [ha, hq]
      · simp only [List.length_cons]
        omega
  case case2 data hne =>
    unfold audibleFrom at h
    split at h
    case h_1 lo hi data => exact absurd rfl (hne lo hi data)
    case h_2 => cases h

theorem eq_nil_of_even (hne : ∀ lo hi rest, data = lo :: hi :: rest → False)
    (h : 2 ∣ data.length) : data = [] := by
  match data, h with
  | [], _ => rfl
  | [_], h => simp at h
  | lo :: hi :: rest, _ => exact (hne lo hi rest rfl).elim

theorem quiet_append (h : 2 ∣ before.length) (data : Bytes) :
    quiet (before ++ data) = (quiet before && quiet data) := by
  induction before using quiet.induct
  case case1 ih =>
    simp only [List.length_cons] at h
    simp [ih (by omega), Bool.and_assoc]
  case case2 hne =>
    rw [eq_nil_of_even hne h]
    rfl

theorem audibleFrom_append (h : 2 ∣ before.length) (hq : quiet before) (data : Bytes) :
    audibleFrom fb offset (before ++ data) = audibleFrom fb (offset + before.length) data := by
  induction before using quiet.induct generalizing offset
  case case1 ih =>
    simp only [quiet, Bool.and_eq_true, Bool.not_eq_true'] at hq
    simp only [List.length_cons] at h
    simp only [List.cons_append, audibleFrom, hq.left, Bool.false_eq_true, ↓reduceIte,
      ih (by omega) hq.right, List.length_cons]
    congr 1
    omega
  case case2 hne =>
    rw [eq_nil_of_even hne h]
    rfl

theorem quiet_take (h : quiet data) (k : Nat) : quiet (data.take k) := by
  induction data using quiet.induct generalizing k
  case case1 ih =>
    simp only [quiet, Bool.and_eq_true, Bool.not_eq_true'] at h
    match k with
    | 0 => simp
    | 1 => simp
    | k + 2 => simp [h.left, ih h.right k]
  case case2 data hne =>
    rcases data with _ | ⟨lo, _ | ⟨hi, rest⟩⟩
    · simp
    · cases k <;> simp
    · exact (hne lo hi rest rfl).elim

-- The bytes in front of the first audible frame.
def lead (f : Format) (input : Bytes) : Nat :=
  (audibleFrameOffset input f.frameBytes).getD input.length

theorem lead_of_quiet (h : quiet input) : lead f input = input.length := by
  rw [lead, audibleFrameOffset, audibleFrom_eq_none_iff.mpr h, Option.getD_none]

theorem Format.two_dvd (h : f.frameBytes ∣ n) : 2 ∣ n :=
  (Nat.dvd_mul_left 2 f.channels).trans h

theorem lead_append_of_quiet (h : quiet input) (ha : f.frameBytes ∣ input.length) (data : Bytes) :
    lead f (input ++ data) = input.length + lead f data := by
  have ⟨k, hk⟩ := ha
  have hmod (m : Nat) : (input.length + m) % f.frameBytes = m % f.frameBytes := by
    rw [hk, Nat.mul_add_mod]
  simp only [lead, audibleFrameOffset, audibleFrom_append (f.two_dvd ha) h, Nat.zero_add]
  cases hd : audibleFrom f.frameBytes 0 data
  case none =>
    rw [audibleFrom_eq_none_iff] at hd
    rw [audibleFrom_eq_none_iff.mpr hd, Option.getD_none, Option.getD_none, List.length_append]
  case some =>
    obtain ⟨before, lo, hi, rest, rfl, hq, hb, heven, rfl⟩ := audibleFrom_eq_some hd
    rw [audibleFrom_append heven hq]
    have := Nat.mod_le before.length f.frameBytes
    simp only [audibleFrom, hb, ↓reduceIte, Option.getD_some, hmod, Nat.zero_add]
    omega

theorem lead_le_append (ha : f.frameBytes ∣ input.length) (data : Bytes) :
    lead f input ≤ lead f (input ++ data) := by
  cases hd : audibleFrameOffset input f.frameBytes
  case none =>
    have hq := audibleFrom_eq_none_iff.mp hd
    rw [lead_append_of_quiet hq ha, lead_of_quiet hq]
    exact Nat.le_add_right ..
  case some =>
    obtain ⟨before, lo, hi, rest, rfl, hq, hb, heven, rfl⟩ := audibleFrom_eq_some hd
    simp [lead, audibleFrameOffset, List.append_assoc, audibleFrom_append heven hq, hb]

end Quiet

section Time

def Format.bytesRate (f : Format) : Nat :=
  f.sampleRate * f.frameBytes

-- The bytes last a whole number of nanoseconds.
def Format.Whole (f : Format) (bytes : Nat) : Prop :=
  f.bytesRate ∣ second * bytes

instance : Decidable (f.Whole n) :=
  inferInstanceAs (Decidable (_ ∣ _))

def Format.preroll (f : Format) : Nat :=
  f.bytesInDuration audioLeadPreroll

def Format.maxTrim (f : Format) : Nat :=
  f.bytesInDuration audioLeadMaxTrim

theorem Format.Whole.sub (h : f.Whole m) (h' : f.Whole n) : f.Whole (m - n) := by
  rw [Whole, Nat.mul_sub]
  exact Nat.dvd_sub h h'

theorem Format.Whole.add (h : f.Whole m) (h' : f.Whole n) : f.Whole (m + n) := by
  rw [Whole, Nat.mul_add]
  exact Nat.dvd_add h h'

theorem Format.preroll_whole : f.frameBytes ∣ f.preroll ∧ f.Whole f.preroll ∧ 0 < f.preroll := by
  cases f <;> decide

theorem Format.maxTrim_whole : f.frameBytes ∣ f.maxTrim ∧ f.Whole f.maxTrim ∧
    audioLeadMaxTrim * f.bytesRate = second * f.maxTrim ∧ 0 < f.maxTrim := by
  cases f <;> decide

theorem Format.maxTrim_le_iff (hd : dropped * f.bytesRate = second * n) :
    audioLeadMaxTrim ≤ dropped ↔ f.maxTrim ≤ n := by
  have hr : 0 < f.bytesRate := by cases f <;> decide
  have hs : 0 < second := by decide
  rw [← Nat.mul_le_mul_right_iff hr, hd, f.maxTrim_whole.right.right.left,
    Nat.mul_le_mul_left_iff hs]

theorem Format.frameBytes_pos : 0 < f.frameBytes ∧ 0 < f.channels := by
  cases f <;> decide

theorem Format.bytesInDuration_eq (h : d * f.sampleRate = second * k) :
    f.bytesInDuration d = k * f.frameBytes := by
  have hs : f.samplesInDuration d = k := by
    rw [samplesInDuration, h, Nat.mul_div_cancel_left _ (by decide)]
  have hk : k * (f.channels * 2) = k * f.channels * 2 := (Nat.mul_assoc ..).symm
  simp only [bytesInDuration, hs, frameBytes, depth, hk]
  omega

theorem Format.budget_eq (hd : dropped * f.bytesRate = second * n) (ha : f.frameBytes ∣ n) :
    f.bytesInDuration (audioLeadMaxTrim - dropped) = f.maxTrim - n := by
  obtain ⟨k, rfl⟩ := ha
  have hk : dropped * f.sampleRate = second * k := by
    refine Nat.eq_of_mul_eq_mul_left f.frameBytes_pos.left ?_
    calc f.frameBytes * (dropped * f.sampleRate)
      _ = dropped * f.bytesRate := by rw [bytesRate]; ring
      _ = f.frameBytes * (second * k) := by rw [hd]; ring
  have hmax : audioLeadMaxTrim * f.sampleRate = second * (2 * f.sampleRate) := by
    rw [audioLeadMaxTrim]
    ring
  have hleft : (audioLeadMaxTrim - dropped) * f.sampleRate =
      second * (2 * f.sampleRate - k) := by
    rw [Nat.mul_sub, Nat.sub_mul, hk, hmax]
  rw [maxTrim, bytesInDuration_eq hleft, bytesInDuration_eq hmax, Nat.sub_mul, Nat.mul_comm k]

theorem Format.duration_eq (ha : f.frameBytes ∣ n) (hw : f.Whole n) :
    f.duration n * f.bytesRate = second * n := by
  obtain ⟨k, rfl⟩ := ha
  have hs : f.samples (f.frameBytes * k) = k := by
    have hk : f.frameBytes * k * 8 = f.channels * (k * 16) := by rw [frameBytes]; ring
    rw [samples, hk, Nat.mul_div_cancel_left _ f.frameBytes_pos.right, depth,
      Nat.mul_div_cancel _ (by decide)]
  have hdvd : f.sampleRate ∣ second * k := by
    refine Nat.dvd_of_mul_dvd_mul_right f.frameBytes_pos.left ?_
    exact hw.trans (dvd_of_eq (by ring))
  rw [duration, hs, bytesRate, ← Nat.mul_assoc, Nat.div_mul_cancel hdvd]
  ring

end Time

namespace AudioLeadTrimmer

theorem keepPreroll_eq {dropped : Duration} (done : Bool) (held : Bytes)
    (hb : f.bytesInDuration (audioLeadMaxTrim - dropped) = budget) (ha : f.frameBytes ∣ budget) :
    keepPreroll ⟨done, f, held, dropped⟩ =
      ⟨done, f, held.drop (min (held.length - f.preroll) budget),
        dropped + f.duration (min (held.length - f.preroll) budget)⟩ := by
  have hkeep : f.bytesInDuration audioLeadPreroll -
      f.bytesInDuration audioLeadPreroll % f.frameBytes = f.preroll := by
    have hz := Nat.mod_eq_zero_of_dvd f.preroll_whole.left
    rw [Format.preroll] at hz ⊢
    rw [hz, Nat.sub_zero]
  simp only [keepPreroll, hkeep, hb, Nat.mod_eq_zero_of_dvd ha, Nat.sub_zero]
  split
  case isTrue => rfl
  case isFalse he =>
    have hz : f.duration 0 = 0 := by simp [Format.duration, Format.samples]
    rw [Nat.eq_zero_of_not_pos he, hz, Nat.add_zero, List.drop_zero]

end AudioLeadTrimmer

theorem zero_or_add_le (h : m ≤ k - keep) : m = 0 ∨ m + keep ≤ k := by
  omega

-- `n` bytes of the lead-in are left out.
structure Trimmed (f : Format) (input rest : Bytes) (n : Nat) : Prop where
  rest : rest = input.drop n
  le : n ≤ input.length
  frames : f.frameBytes ∣ n
  quiet : audibleFrameOffset (input.take n) f.frameBytes = none
  bounded : n ≤ f.maxTrim
  preroll : n = 0 ∨ n + f.preroll ≤ lead f input

theorem Trimmed.append {rest : Bytes} (h : Trimmed f input rest n)
    (ha : f.frameBytes ∣ input.length) (data : Bytes) :
    Trimmed f (input ++ data) (rest ++ data) n where
  rest := by rw [h.rest, List.drop_append_of_le_length h.le]
  le := h.le.trans (by simp)
  frames := h.frames
  quiet := by rw [List.take_append_of_le_length h.le]; exact h.quiet
  bounded := h.bounded
  preroll := h.preroll.imp_right (·.trans (lead_le_append ha data))

-- Everything so far was quiet, and what is held is the end of it.
structure Waiting (f : Format) (input : Bytes) (t : AudioLeadTrimmer) : Prop where
  done : t.done = false
  quiet : quiet input
  aligned : f.frameBytes ∣ input.length
  whole : f.Whole input.length
  format : t.held ≠ [] → t.format = f
  held : t.held = input.drop (input.length - f.preroll)
  dropped : t.dropped * f.bytesRate = second * (input.length - f.preroll)
  below : input.length - f.preroll < f.maxTrim

namespace Waiting

variable {t : AudioLeadTrimmer}

theorem trimmed_of_le (h : AgentHost.quiet input) (hn : f.frameBytes ∣ n)
    (hle : n ≤ input.length - f.preroll) (hb : n ≤ f.maxTrim) :
    Trimmed f input (input.drop n) n where
  rest := rfl
  le := hle.trans (Nat.sub_le ..)
  frames := hn
  quiet := audibleFrom_eq_none_iff.mpr (quiet_take h n)
  bounded := hb
  preroll := by
    rw [lead_of_quiet h]
    exact zero_or_add_le hle

theorem init : Waiting f [] {} where
  done := rfl
  quiet := rfl
  aligned := dvd_zero _
  whole := by simp [Format.Whole]
  format := fun h => absurd rfl h
  held := by simp
  dropped := by simp
  below := by simpa using f.maxTrim_whole.right.right.right

theorem frames (h : Waiting f input t) : f.frameBytes ∣ input.length - f.preroll :=
  Nat.dvd_sub h.aligned f.preroll_whole.left

theorem trim_eq (h : Waiting f input t) : t.trim (.data f data) = t.trimData f data := by
  have hf : ¬(t.held ≠ [] ∧ f ≠ t.format) := fun hf => hf.right (h.format hf.left).symm
  simp [h.done, hf]

end Waiting

@[local simp]
def Chunk.bytes : Chunk → Bytes
  | .data _ data => data
  | .other _ => []

theorem AudioLeadTrimmer.release_eq (t : AudioLeadTrimmer) :
    t.release = (t.release.fst, { t with held := [] }) := by
  unfold release
  split
  case isTrue h => simp [← h]
  case isFalse => rfl

theorem AudioLeadTrimmer.flatMap_release (t : AudioLeadTrimmer) :
    t.release.fst.flatMap Chunk.bytes = t.held := by
  unfold release
  split
  case isTrue h => rw [h]; rfl
  case isFalse => simp

-- What the chunks up to now have come to.
def Reached (f : Format) (input : Bytes) (out : List Chunk) (t : AudioLeadTrimmer) : Prop :=
  (out = [] ∧ Waiting f input t) ∨
    (t.done ∧ t.held = [] ∧ ∃ n, Trimmed f input (out.flatMap Chunk.bytes) n)

namespace Waiting

variable {t : AudioLeadTrimmer}

-- The quiet part of a chunk is added to what is held, and the start of that is dropped.
theorem keepPreroll (h : Waiting f input t) (done : Bool) (data : Bytes) :
    ∃ e, input.length - f.preroll + e = min ((input ++ data).length - f.preroll) f.maxTrim ∧
      { t with done := done, format := f, held := t.held ++ data }.keepPreroll =
        ⟨done, f, (input ++ data).drop (input.length - f.preroll + e),
          t.dropped + f.duration e⟩ := by
  refine ⟨min ((t.held ++ data).length - f.preroll) (f.maxTrim - (input.length - f.preroll)),
    ?_, ?_⟩
  · have hbelow := h.below
    simp only [h.held, List.length_append, List.length_drop]
    generalize f.preroll = keep, f.maxTrim = budget at hbelow ⊢
    omega
  · have hheld : t.held ++ data = (input ++ data).drop (input.length - f.preroll) := by
      rw [h.held, List.drop_append_of_le_length (Nat.sub_le ..)]
    rw [AudioLeadTrimmer.keepPreroll_eq _ _ (f.budget_eq h.dropped h.frames)
      (Nat.dvd_sub f.maxTrim_whole.left h.frames), ← List.drop_drop, ← hheld]

theorem trim_quiet (h : Waiting f input t) (hq : AgentHost.quiet data)
    (ha : f.frameBytes ∣ data.length) (hw : f.Whole data.length) :
    Reached f (input ++ data) (t.trim (.data f data)).fst (t.trim (.data f data)).snd := by
  have ⟨e, hsum, hk⟩ := h.keepPreroll t.done data
  have hquiet : AgentHost.quiet (input ++ data) := by
    rw [quiet_append (f.two_dvd h.aligned), h.quiet, hq]
    rfl
  have haligned : f.frameBytes ∣ (input ++ data).length :=
    List.length_append ▸ dvd_add h.aligned ha
  have hwhole : f.Whole (input ++ data).length := List.length_append ▸ h.whole.add hw
  have hsum' : f.frameBytes ∣ input.length - f.preroll + e ∧
      f.Whole (input.length - f.preroll + e) := by
    rw [hsum]
    rcases min_choice ((input ++ data).length - f.preroll) f.maxTrim with hm | hm <;> rw [hm]
    · exact ⟨Nat.dvd_sub haligned f.preroll_whole.left, hwhole.sub f.preroll_whole.right.left⟩
    · exact ⟨f.maxTrim_whole.left, f.maxTrim_whole.right.left⟩
  have he : f.frameBytes ∣ e ∧ f.Whole e := by
    have hw := hsum'.right.sub (h.whole.sub f.preroll_whole.right.left)
    rw [Nat.add_sub_cancel_left] at hw
    exact ⟨(Nat.dvd_add_right h.frames).mp hsum'.left, hw⟩
  have hd : (t.dropped + f.duration e) * f.bytesRate =
      second * (input.length - f.preroll + e) := by
    rw [Nat.add_mul, Nat.mul_add, h.dropped, f.duration_eq he.left he.right]
  rw [h.trim_eq, trimData, audibleFrameOffset, audibleFrom_eq_none_iff.mpr hq]
  simp only [hk]
  rw [hsum] at hd ⊢
  by_cases hb : f.maxTrim ≤ (input ++ data).length - f.preroll
  case neg =>
    rw [min_eq_left (Nat.le_of_not_le hb)] at hd ⊢
    rw [if_neg (mt (f.maxTrim_le_iff hd).mp hb)]
    exact .inl ⟨rfl, h.done, hquiet, haligned, hwhole, fun _ => rfl, rfl, hd, Nat.not_le.mp hb⟩
  case pos =>
    rw [min_eq_right hb] at hd ⊢
    rw [if_pos ((f.maxTrim_le_iff hd).mpr le_rfl)]
    have ht := trimmed_of_le hquiet f.maxTrim_whole.left hb le_rfl
    rw [AudioLeadTrimmer.release_eq]
    exact .inr ⟨rfl, rfl, _, by simpa only [AudioLeadTrimmer.flatMap_release] using ht⟩

theorem trim_audible (h : Waiting f input t) (hq : ¬AgentHost.quiet data) :
    Reached f (input ++ data) (t.trim (.data f data)).fst (t.trim (.data f data)).snd := by
  cases hd : audibleFrameOffset data f.frameBytes
  case none => exact absurd (audibleFrom_eq_none_iff.mp hd) hq
  case some onset =>
    have ⟨before, lo, hi, rest, hdata, hbefore, _, _, honset⟩ := audibleFrom_eq_some hd
    rw [Nat.zero_add] at honset
    have ⟨e, hm, hk⟩ := h.keepPreroll true (data.take onset)
    generalize hn : input.length - f.preroll + e = m at hm hk
    have hlead : lead f (input ++ data) = input.length + onset := by
      rw [lead_append_of_quiet h.quiet h.aligned, lead, hd, Option.getD_some]
    have hle : onset ≤ before.length := honset ▸ Nat.sub_le ..
    have hlen : before.length ≤ data.length := by simp [hdata]
    have hquiet : (input ++ data.take onset).length = input.length + onset := by
      rw [List.length_append, List.length_take, min_eq_left (hle.trans hlen)]
    have honset : f.frameBytes ∣ onset := honset ▸ Nat.dvd_sub_mod _
    have hkeep : m ≤ input.length + onset - f.preroll := by
      rw [hm, hquiet]
      exact min_le_left ..
    have hmle : m ≤ input.length + onset := hkeep.trans (Nat.sub_le ..)
    have hbound : m ≤ f.maxTrim := hm ▸ min_le_right ..
    rw [h.trim_eq, trimData, hd]
    simp only [hk]
    refine .inr ⟨rfl, rfl, m, ⟨?rest, ?le, ?frames, ?quiet, hbound, ?preroll⟩⟩
    case rest =>
      have hrest : (input ++ data.take onset).drop m ++ data.drop onset =
          (input ++ data).drop m := by
        rw [← List.drop_append_of_le_length (hquiet ▸ hmle), List.append_assoc,
          List.take_append_drop]
      simp [hrest]
    case le =>
      rw [List.length_append]
      exact hmle.trans (Nat.add_le_add_left (hle.trans hlen) _)
    case frames =>
      rw [hm, hquiet]
      rcases min_choice (input.length + onset - f.preroll) f.maxTrim with hm | hm <;> rw [hm]
      · exact Nat.dvd_sub (dvd_add h.aligned honset) f.preroll_whole.left
      · exact f.maxTrim_whole.left
    case quiet =>
      have htake : (input ++ data).take m = (input ++ before).take m := by
        rw [hdata, ← List.append_assoc, List.take_append_of_le_length]
        rw [List.length_append]
        exact hmle.trans (Nat.add_le_add_left hle _)
      rw [htake]
      refine audibleFrom_eq_none_iff.mpr (quiet_take ?_ m)
      rw [quiet_append (f.two_dvd h.aligned), h.quiet, hbefore]
      rfl
    case preroll =>
      rw [hlead]
      exact zero_or_add_le hkeep

end Waiting

theorem Reached.trim (h : Reached f input out t) (hi : f.frameBytes ∣ input.length)
    (ha : f.frameBytes ∣ data.length) (hw : f.Whole data.length) :
    Reached f (input ++ data) (out ++ (t.trim (.data f data)).fst) (t.trim (.data f data)).snd := by
  rcases h with ⟨rfl, h⟩ | ⟨hd, hh, n, ht⟩
  case inl =>
    by_cases hq : quiet data
    case pos => exact h.trim_quiet hq ha hw
    case neg => exact h.trim_audible hq
  case inr =>
    have htrim : t.trim (.data f data) = ([.data f data], t) := by
      simp [hd]
    rw [htrim]
    exact .inr ⟨hd, hh, n, by simpa using ht.append hi data⟩

-- All chunks in turn, with what is written for them.
def AudioLeadTrimmer.run (t : AudioLeadTrimmer) : List Chunk → List Chunk × AudioLeadTrimmer
  | [] => ([], t)
  | chunk :: chunks =>
    let (out, t) := t.trim chunk
    let (outs, t) := t.run chunks
    (out ++ outs, t)

theorem Reached.run {datas : List Bytes} (h : Reached f input out t)
    (hi : f.frameBytes ∣ input.length) (ha : ∀ data ∈ datas, f.frameBytes ∣ data.length)
    (hw : ∀ data ∈ datas, f.Whole data.length) :
    Reached f (input ++ datas.flatten) (out ++ (t.run (datas.map (.data f))).fst)
      (t.run (datas.map (.data f))).snd := by
  induction datas generalizing input out t
  case nil => simpa [AudioLeadTrimmer.run] using h
  case cons data datas ih =>
    rw [List.forall_mem_cons] at ha hw
    have hi' : f.frameBytes ∣ (input ++ data).length := List.length_append ▸ dvd_add hi ha.left
    have h' := ih (h.trim hi ha.left hw.left) hi' ha.right hw.right
    rw [List.append_assoc, List.append_assoc] at h'
    exact h'

-- What was written and what is held is the input without a bounded part of its quiet lead-in. Once
-- that has lasted longer than the bound and the preroll, nothing is held any more.
theorem lead_trimmed (f : Format) (datas : List Bytes)
    (haligned : ∀ data ∈ datas, f.frameBytes ∣ data.length)
    (hwhole : ∀ data ∈ datas, f.Whole data.length) :
    let out := (AudioLeadTrimmer.run {} (datas.map (.data f))).fst
    let t := (AudioLeadTrimmer.run {} (datas.map (.data f))).snd
    (∃ n, Trimmed f datas.flatten (out.flatMap Chunk.bytes ++ t.held) n) ∧
      (f.maxTrim + f.preroll < lead f datas.flatten → t.done) ∧ t.held.length ≤ f.preroll ∧
      (t.done → ∀ chunk, t.trim chunk = ([chunk], t)) := by
  intro out t
  have hstart : Reached f [] [] {} := .inl ⟨rfl, .init⟩
  have h : Reached f datas.flatten out t := hstart.run (dvd_zero _) haligned hwhole
  have hpass : t.done → ∀ chunk, t.trim chunk = ([chunk], t) :=
    fun hd chunk => by simp [hd]
  rcases h with ⟨hout, h⟩ | ⟨hd, hh, n, h⟩
  case inl =>
    refine ⟨⟨datas.flatten.length - f.preroll, ?_⟩, fun hlong => ?_, ?_, hpass⟩
    · have ht := Waiting.trimmed_of_le h.quiet h.frames le_rfl h.below.le
      rw [hout, List.flatMap_nil, List.nil_append, h.held]
      exact ht
    · rw [lead_of_quiet h.quiet] at hlong
      exact absurd h.below (Nat.not_lt.mpr (Nat.le_sub_of_add_le hlong.le))
    · rw [h.held, List.length_drop]
      generalize f.preroll = keep
      omega
  case inr =>
    refine ⟨⟨n, ?_⟩, fun _ => hd, by simp [hh], hpass⟩
    rw [hh, List.append_nil]
    exact h

-- A quiet frame in front of an audible one.
theorem lead_trimmed_sample :
    AudioLeadTrimmer.run {} ([[0, 0], [0, 1]].map (.data .l16Mono16K)) =
      ([.data .l16Mono16K [0, 0, 0, 1]], ⟨true, .l16Mono16K, [], 0⟩) ∧
      ∃ n, Trimmed .l16Mono16K [0, 0, 0, 1] [0, 0, 0, 1] n := by
  have h : AudioLeadTrimmer.run {} ([[0, 0], [0, 1]].map (.data .l16Mono16K)) =
      ([.data .l16Mono16K [0, 0, 0, 1]], ⟨true, .l16Mono16K, [], 0⟩) := by
    decide
  have ht := (lead_trimmed .l16Mono16K [[0, 0], [0, 1]] (by decide) (by decide)).left
  exact ⟨h, ht⟩

def silence (n : Nat) : Bytes :=
  List.replicate n 0

theorem quiet_silence (k : Nat) : quiet (silence (2 * k)) := by
  induction k
  case zero => rfl
  case succ k ih =>
    have hk : silence (2 * (k + 1)) = 0 :: 0 :: silence (2 * k) := rfl
    have ha : audible 0 0 = false := by decide
    rw [hk, quiet, ih, ha]
    rfl

theorem trim_silence {g : Format} (budget e : Nat) (hg : silence held ≠ [] → g = f)
    (hb : f.bytesInDuration (audioLeadMaxTrim - dropped) = budget) (ha : f.frameBytes ∣ budget)
    (he : min (held + 2 * k - f.preroll) budget = e)
    (hd : ¬audioLeadMaxTrim ≤ dropped + f.duration e) :
    trim ⟨false, g, silence held, dropped⟩ (.data f (silence (2 * k))) =
      ([], ⟨false, f, silence (held + 2 * k - e), dropped + f.duration e⟩) := by
  have hq : audibleFrom f.frameBytes 0 (silence (2 * k)) = none :=
    audibleFrom_eq_none_iff.mpr (quiet_silence k)
  have happ : silence held ++ silence (2 * k) = silence (held + 2 * k) :=
    List.replicate_append_replicate
  have hdrop : (silence (held + 2 * k)).drop e = silence (held + 2 * k - e) :=
    List.drop_replicate
  have hlen : (silence (held + 2 * k)).length = held + 2 * k := List.length_replicate
  have hg : ¬(silence held ≠ [] ∧ f ≠ g) := fun h => h.right (hg h.left).symm
  simp only [trim, trimData, audibleFrameOffset, hq, happ, hg,
    Bool.false_eq_true, ↓reduceIte, AudioLeadTrimmer.keepPreroll_eq _ _ hb ha, hlen, he, hdrop,
    if_neg hd]

theorem run_pair
    (h₁ : trim ⟨false, .l16Mono16K, silence 0, 0⟩ (.data f a) = ([], t₁))
    (h₂ : t₁.trim (.data f b) = ([], t₂)) :
    (AudioLeadTrimmer.run {} ([a, b].map (.data f))).snd = t₂ := by
  change (trim (trim ⟨false, .l16Mono16K, silence 0, 0⟩
    (.data f a)).snd (.data f b)).snd = t₂
  rw [h₁, h₂]

theorem flatten_pair : [silence a, silence b].flatten = silence (a + b) := by
  simp [silence]

-- The time of one frame is rounded down, so a nanosecond of the bound is left for ever.
theorem quiet_audio_held :
    let datas := [silence (2 * 2881), silence (2 * 96000)]
    let t := (AudioLeadTrimmer.run {} (datas.map (.data .l16Mono48K))).snd
    (∀ data ∈ datas, Format.l16Mono48K.frameBytes ∣ data.length) ∧
      Format.l16Mono48K.maxTrim + Format.l16Mono48K.preroll < lead .l16Mono48K datas.flatten ∧
      t.done = false ∧ Format.l16Mono48K.preroll < t.held.length := by
  have h₁ : trim ⟨false, .l16Mono16K, silence 0, 0⟩
      (.data .l16Mono48K (silence (2 * 2881))) =
      ([], ⟨false, .l16Mono48K, silence 5760, 20833⟩) :=
    trim_silence 192000 2 (absurd rfl) (by decide) (by decide) (by decide) (by decide)
  have h₂ : trim ⟨false, .l16Mono48K, silence 5760, 20833⟩
      (.data .l16Mono48K (silence (2 * 96000))) =
      ([], ⟨false, .l16Mono48K, silence 5762, 1999999999⟩) :=
    trim_silence 191998 191998 (fun _ => rfl) (by decide) (by decide) (by decide) (by decide)
  intro datas t
  have ht : t = ⟨false, .l16Mono48K, silence 5762, 1999999999⟩ := run_pair h₁ h₂
  have hflat : datas.flatten = silence (2 * 2881 + 2 * 96000) := flatten_pair
  have hlen (n : Nat) : (silence n).length = n := List.length_replicate
  rw [ht, hflat, ← Nat.mul_add, lead_of_quiet (quiet_silence _), hlen, hlen,
    List.forall_mem_cons, List.forall_mem_singleton, hlen, hlen]
  decide

end GizClaw.AgentHost

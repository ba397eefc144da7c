import GizClaw.WebRTC.Stream

-- No byte of a stream is lost, doubled or moved on its way through messages.

namespace GizClaw.WebRTC

open List (append_assoc length_append length_take append_nil)

section Write

variable {σ : Type} {L : Link σ}

-- What the channel took of the messages.
def taken (msgs : List (Bytes × Nat)) : Bytes :=
  msgs.flatMap fun m => m.fst.take m.snd

def WellSized (msgs : List (Bytes × Nat)) : Prop :=
  ∀ m ∈ msgs, m.fst ≠ [] ∧ m.fst.length ≤ streamChunkSize

-- What was done with `p` after `written` bytes: the beginning of it was taken, and counted.
structure Sends (p : Bytes) (written : Nat) (c : Conn σ) (r : Written × Conn σ)
    (msgs : List (Bytes × Nat)) (k : Nat) : Prop where
  sent : r.snd.sent = c.sent ++ msgs
  sizes : WellSized msgs
  taken : taken msgs = p.take k
  le : k ≤ p.length
  written : r.fst.written = written + k
  streamTX : r.snd.streamTX = c.streamTX + k
  all : r.fst.err = none → k = p.length

variable {p q : Bytes} {written : Nat} {c : Conn σ}

theorem Sends.nil : Sends [] written c (⟨written, none⟩, c) [] 0 where
  sent := by simp
  sizes := nofun
  taken := rfl
  le := le_rfl
  written := rfl
  streamTX := rfl
  all := fun _ => rfl

theorem Sends.append (h : Sends p written c r msgs k)
    (hn : ∃ msgs' k', Sends q r.fst.written r.snd (next r.fst.written r.snd) msgs' k') :
    ∃ msgs' k', Sends (p ++ q) written c (andThen r next) msgs' k' := by
  cases he : r.fst.err
  case some =>
    have hr : andThen r next = r := by simp [andThen, he]
    rw [hr]
    refine ⟨msgs, k, h.sent, h.sizes, ?_, ?_, h.written, h.streamTX, fun hn => ?_⟩
    · rw [h.taken, List.take_append_of_le_length h.le]
    · simp only [length_append]
      exact h.le.trans (Nat.le_add_right ..)
    · rw [he] at hn
      cases hn
  case none =>
    have hr : andThen r next = next r.fst.written r.snd := by simp [andThen, he]
    have ⟨msgs', k', h'⟩ := hn
    have hk := h.all he
    rw [hr]
    refine ⟨msgs ++ msgs', k + k', ?_, ?_, ?_, ?_, ?_, ?_, fun hn => ?_⟩
    · rw [h'.sent, h.sent, append_assoc]
    · exact fun m hm => (List.mem_append.mp hm).elim (h.sizes m) (h'.sizes m)
    · have : WebRTC.taken (msgs ++ msgs') = WebRTC.taken msgs ++ WebRTC.taken msgs' :=
        List.flatMap_append
      rw [this, h.taken, h'.taken, hk, List.take_length, List.take_length_add_append]
    · have := h'.le
      simp only [length_append]
      omega
    · rw [h'.written, h.written, Nat.add_assoc]
    · rw [h'.streamTX, h.streamTX, Nat.add_assoc]
    · rw [h'.all hn, hk, length_append]

-- A message that is handed to the channel, and one that is not.
theorem sends_one (hp : p ≠ []) (hs : p.length ≤ streamChunkSize) (hn : n ≤ p.length)
    (hall : err = none → n = p.length) (hsent : c'.sent = c.sent ++ [(p, n)])
    (htx : c'.streamTX = c.streamTX + n) :
    Sends p written c (⟨written + n, err⟩, c') [(p, n)] n where
  sent := hsent
  sizes := by simp [WellSized, hp, hs]
  taken := by simp [taken]
  le := hn
  written := rfl
  streamTX := htx
  all := hall

theorem sends_none (hsent : c'.sent = c.sent)
    (htx : c'.streamTX = c.streamTX) : Sends p written c (⟨written, some err⟩, c') [] 0 where
  sent := by simp [hsent]
  sizes := nofun
  taken := rfl
  le := Nat.zero_le _
  written := rfl
  streamTX := htx
  all := nofun

theorem writeDataChannelBudgeted_spec (p : Bytes) (c : Conn σ)
    (h : writeDataChannelBudgeted L p c = ((n, err), c')) :
    c'.streamTX = c.streamTX ∧ n ≤ p.length ∧
      (c'.sent = c.sent ∧ n = 0 ∧ err ≠ none ∨ c'.sent = c.sent ++ [(p, n)]) := by
  simp only [writeDataChannelBudgeted] at h
  split at h
  case h_1 =>
    cases h
    exact ⟨rfl, Nat.zero_le _, .inl ⟨rfl, rfl, nofun⟩⟩
  case h_2 link _ =>
    have hle := L.taken_le p link
    split at h
    all_goals
      cases h
      exact ⟨rfl, hle, .inr rfl⟩

theorem send_sends (hp : p ≠ []) (hs : p.length ≤ streamChunkSize) (written : Nat) (c : Conn σ) :
    ∃ msgs k, Sends p written c (send L p written c) msgs k := by
  simp only [send]
  split
  case h_1 => exact ⟨_, _, sends_none rfl rfl⟩
  case h_2 link _ =>
    rcases hw : writeDataChannelBudgeted L p { c with link } with ⟨⟨n, err⟩, c'⟩
    have ⟨htx, hle, hsent⟩ := writeDataChannelBudgeted_spec p _ hw
    cases err
    case some =>
      rcases hsent with ⟨hsent, rfl, _⟩ | hsent
      · exact ⟨_, _, sends_none hsent htx⟩
      · exact ⟨_, _, sends_one hp hs hle nofun hsent (by rw [htx])⟩
    case none =>
      have hsent := hsent.resolve_left fun h => h.right.right rfl
      refine ⟨_, _, sends_one hp hs hle (fun hn => ?_) hsent (by rw [htx])⟩
      simpa using hn

theorem writeLoop_sends (p : Bytes) (written : Nat) (c : Conn σ) :
    ∃ msgs k, Sends p written c (writeLoop L p written c) msgs k := by
  fun_induction writeLoop L p written c
  case case1 => exact ⟨[], 0, .nil⟩
  case case2 p written c hp chunk hi =>
    have hne : p.take chunk ≠ [] := by
      have := List.length_pos_of_ne_nil hp
      simp only [ne_eq, List.take_eq_nil_iff, hp, or_false, chunk, streamChunkSize]
      omega
    have hlen : (p.take chunk).length ≤ streamChunkSize := by
      rw [length_take]
      omega
    have ⟨msgs, k, hs⟩ := send_sends (L := L) hne hlen written c
    have := hs.append (hi _ _)
    rwa [List.take_append_drop] at this

-- A full chunk is sent as it is, and so is the rest that is shorter.
theorem writeLoop_append (hp : p.length = streamChunkSize) (q : Bytes) (written : Nat)
    (c : Conn σ) :
    writeLoop L (p ++ q) written c = andThen (send L p written c) (writeLoop L q) := by
  have hne : p ++ q ≠ [] := by
    intro h
    simp [(List.append_eq_nil_iff.mp h).left, streamChunkSize] at hp
  have hchunk : min (p ++ q).length streamChunkSize = p.length := by
    rw [length_append]
    omega
  rw [writeLoop, dif_neg hne]
  simp only [hchunk, List.take_left, List.drop_left]

theorem andThen_done (r : Written × Conn σ) :
    andThen r (fun written c => (⟨written, none⟩, c)) = r := by
  obtain ⟨⟨written, err⟩, c⟩ := r
  cases err <;> rfl

theorem writeLoop_eq_flush (hp : p.length < streamChunkSize) (written : Nat) (c : Conn σ) :
    writeLoop L p written c = flush L p written c := by
  rw [writeLoop, flush]
  split
  case isTrue => rfl
  case isFalse =>
    have hchunk : min p.length streamChunkSize = p.length := by omega
    have hdone : writeLoop L [] = fun written c => (⟨written, none⟩, c) := by
      funext written c
      rw [writeLoop, dif_pos rfl]
    simp only [hchunk, List.take_length, List.drop_length]
    rw [hdone, andThen_done]

theorem bufferLoop_eq
    (hnext : ∀ chunk written c, next chunk written c = writeLoop L (chunk.val ++ q) written c)
    (buffer : Bytes) (chunk : Chunk) (written : Nat) (c : Conn σ) :
    bufferLoop L next buffer chunk written c =
      writeLoop L (chunk.val ++ buffer ++ q) written c := by
  fun_induction bufferLoop L next buffer chunk written c
  case case1 => simp [hnext]
  case case2 chunk' hc hi =>
    rw [hi]
    simp only [chunk', append_assoc, List.take_append_drop]
  case case3 buffer chunk written c hb count chunk' hc hi =>
    have hfull : chunk'.length = streamChunkSize := by
      simp only [chunk', count, length_append, length_take] at hc ⊢
      omega
    have hne : chunk' ≠ [] := fun h => by simp [h, streamChunkSize] at hfull
    have hdata : chunk.val ++ buffer ++ q = chunk' ++ (buffer.drop count ++ q) := by
      simp [chunk', ← append_assoc (buffer.take count)]
    have hrest : (fun written c => bufferLoop L next (buffer.drop count) .empty written c) =
        writeLoop L (buffer.drop count ++ q) := by
      funext written c
      exact hi written c
    rw [hdata, writeLoop_append hfull, flush, if_neg hne, hrest]

theorem buffersLoop_eq (buffers : List Bytes) (chunk : Chunk) (written : Nat) (c : Conn σ) :
    buffersLoop L buffers chunk written c =
      writeLoop L (chunk.val ++ buffers.flatten) written c := by
  induction buffers generalizing chunk written c
  case nil =>
    rw [buffersLoop, List.flatten_nil, append_nil]
    exact (writeLoop_eq_flush chunk.property written c).symm
  case cons hi =>
    rw [buffersLoop, bufferLoop_eq hi, List.flatten_cons, append_assoc]

theorem writeBuffers_eq_write (buffers : List Bytes) (c : Conn σ) :
    writeBuffers L buffers c = write L buffers.flatten c :=
  buffersLoop_eq buffers .empty 0 c

inductive WriteCall where
  | write (p : Bytes)
  | writeBuffers (buffers : List Bytes)

def WriteCall.data : WriteCall → Bytes
  | .write p => p
  | .writeBuffers buffers => buffers.flatten

def WriteCall.run (L : Link σ) (c : Conn σ) : WriteCall → Written × Conn σ
  | .write p => WebRTC.write L p c
  | .writeBuffers buffers => WebRTC.writeBuffers L buffers c

def runWrites (L : Link σ) : List WriteCall → Conn σ → List Written × Conn σ
  | [], c => ([], c)
  | call :: calls, c =>
    let (r, c) := call.run L c
    let (rs, c) := runWrites L calls c
    (r :: rs, c)

-- What the calls report as written.
def reported (calls : List WriteCall) (rs : List Written) : Bytes :=
  (calls.zip rs).flatMap fun (call, r) => call.data.take r.written

theorem WriteCall.sends (call : WriteCall) (c : Conn σ) :
    ∃ msgs k, Sends call.data 0 c (call.run L c) msgs k := by
  cases call
  case write p => exact writeLoop_sends p 0 c
  case writeBuffers buffers =>
    rw [WriteCall.run, writeBuffers_eq_write]
    exact writeLoop_sends buffers.flatten 0 c

-- A call reports no more than it was given, and all of it unless it fails.
def WriteCall.Counts (call : WriteCall) (r : Written) : Prop :=
  r.written ≤ call.data.length ∧ (r.err = none → r.written = call.data.length)

theorem runWrites_taken (calls : List WriteCall) (c : Conn σ) :
    ∃ msgs, (runWrites L calls c).snd.sent = c.sent ++ msgs ∧ WellSized msgs ∧
      taken msgs = reported calls (runWrites L calls c).fst ∧
      List.Forall₂ WriteCall.Counts calls (runWrites L calls c).fst := by
  induction calls generalizing c
  case nil => exact ⟨[], by simp [runWrites], nofun, rfl, .nil⟩
  case cons call calls hi =>
    have ⟨msgs, k, h⟩ := call.sends (L := L) c
    have ⟨msgs', hsent, hsizes, htaken, hcounts⟩ := hi (call.run L c).snd
    have hk : (call.run L c).fst.written = k := by rw [h.written, Nat.zero_add]
    have hcount : call.Counts (call.run L c).fst :=
      ⟨hk.trans_le h.le, fun he => hk.trans (h.all he)⟩
    refine ⟨msgs ++ msgs', ?_, ?_, ?_, .cons hcount hcounts⟩
    · rw [runWrites, hsent, h.sent, append_assoc]
    · exact fun m hm => (List.mem_append.mp hm).elim (h.sizes m) (hsizes m)
    · have hsplit : taken (msgs ++ msgs') = taken msgs ++ taken msgs' := List.flatMap_append
      rw [hsplit, h.taken, htaken, ← hk]
      rfl

-- Messages that were taken as a whole.
theorem taken_eq_flatten (h : ∀ m ∈ msgs, m.snd = m.fst.length) :
    taken msgs = (msgs.map Prod.fst).flatten := by
  induction msgs
  case nil => rfl
  case cons hi =>
    have ⟨hm, hmsgs⟩ := List.forall_mem_cons.mp h
    have hi := hi hmsgs
    rw [taken] at hi
    simp [taken, hm, hi]

end Write

section Read

inductive Event where
  | receive (m : Bytes)
  | read (size : Nat)

def Reader.step (r : Reader) : Event → ReadResult × Reader
  | .receive m => (.bytes [], r.receive m)
  | .read size => r.read size

@[local simp]
def Reader.run (r : Reader) : List Event → List ReadResult × Reader
  | [] => ([], r)
  | e :: es =>
    let (x, r) := r.step e
    let (xs, r) := Reader.run r es
    (x :: xs, r)

@[local simp]
def ReadResult.data : ReadResult → Bytes
  | .bytes p => p
  | _ => []

@[local simp]
def Event.message : Event → Bytes
  | .receive m => m
  | .read _ => []

-- What has arrived and was not returned.
@[local simp]
def Reader.rest (r : Reader) : Bytes :=
  r.pending ++ r.raw.queue.flatten

def ReadResult.isFailed : ReadResult → Bool
  | .failed _ => true
  | _ => false

-- No message is longer than supported, and the channel has not failed.
structure Reader.Sound (r : Reader) : Prop where
  fault : r.raw.fault = none
  sizes : ∀ m ∈ r.raw.queue, m.length ≤ maxPacketMessageSize

-- Bounds the reads until nothing is left.
def Reader.left (r : Reader) : Nat :=
  r.rest.length + r.raw.queue.length

variable {r : Reader} {size : Nat}

theorem deliver_spec (hp : r.pending = []) (size : Nat) (m : Bytes) :
    (r.deliver size m).fst = .bytes (m.take size) ∧
      (r.deliver size m).snd.raw = r.raw ∧ (r.deliver size m).snd.pending = m.drop size := by
  simp only [Reader.deliver]
  split
  case isTrue hm => simp [hm, hp]
  case isFalse =>
    split
    case isTrue =>
      refine ⟨rfl, rfl, ?_⟩
      rw [length_take, ← List.drop_eq_drop_min]
    case isFalse hge =>
      refine ⟨rfl, rfl, ?_⟩
      rw [length_take] at hge
      exact hp.trans (List.drop_of_length_le (by omega)).symm

-- The next message is taken from the channel, with one read or with two.
theorem read_of_queue (hp : r.pending = []) (hq : r.raw.queue = m :: queue)
    (hm : m.length ≤ maxPacketMessageSize) (size : Nat) :
    ∃ r', r.read size = (.bytes (m.take size), r') ∧ r'.raw = { r.raw with queue } ∧
      r'.pending = m.drop size := by
  have hpend : ¬r.pending ≠ [] := not_not.mpr hp
  have hread : ∃ len, r.read size =
      { r with raw := { r.raw with queue }, readBuffer := some len }.deliver size m := by
    simp only [Reader.read, if_neg hpend, Raw.readDataChannel, hq]
    by_cases hlt : r.readBuffer.getD streamChunkSize < m.length
    case pos =>
      refine ⟨m.length, ?_⟩
      simp only [hlt, hm, and_self, if_true, hq, Nat.lt_irrefl, if_false]
    case neg =>
      refine ⟨r.readBuffer.getD streamChunkSize, ?_⟩
      simp only [if_neg hlt]
  have ⟨len, hread⟩ := hread
  have ⟨hdata, hraw, hpending⟩ := deliver_spec
    (r := { r with raw := { r.raw with queue }, readBuffer := some len }) hp size m
  exact ⟨_, hread.trans (Prod.ext hdata rfl), hraw, hpending⟩

theorem read_of_pending (hp : r.pending ≠ []) (size : Nat) :
    r.read size = (.bytes (r.pending.take size), { r with pending := r.pending.drop size }) := by
  simp only [Reader.read, hp, ne_eq, not_false_eq_true, if_true, length_take,
    ← List.drop_eq_drop_min]

theorem read_of_nothing (h : r.Sound) (hp : r.pending = []) (hq : r.raw.queue = []) (size : Nat) :
    ∃ len, r.read size = (.blocked, { r with readBuffer := some len }) := by
  simp [Reader.read, hp, Raw.readDataChannel, hq, h.fault]

theorem read_spec (h : r.Sound) (hs : 1 ≤ size) :
    (r.read size).snd.Sound ∧ ¬(r.read size).fst.isFailed ∧
      (r.read size).fst.data ++ (r.read size).snd.rest = r.rest ∧
      (r.read size).snd.left ≤ r.left - 1 := by
  by_cases hp : r.pending = []
  case neg =>
    have hlen := List.length_pos_of_ne_nil hp
    rw [read_of_pending hp]
    refine ⟨⟨h.fault, h.sizes⟩, nofun, ?_, ?_⟩
    · simp [← append_assoc]
    · simp only [Reader.left, Reader.rest, length_append, List.length_drop]
      omega
  case pos =>
    cases hq : r.raw.queue
    case nil =>
      have ⟨len, hr⟩ := read_of_nothing h hp hq size
      rw [hr]
      exact ⟨⟨h.fault, h.sizes⟩, nofun, rfl, by simp [Reader.left, hp, hq]⟩
    case cons =>
      have ⟨hm, hqueue⟩ := List.forall_mem_cons.mp (hq ▸ h.sizes)
      have ⟨r', hr, hraw, hpending⟩ := read_of_queue hp hq hm size
      rw [hr]
      refine ⟨⟨?_, ?_⟩, nofun, ?_, ?_⟩
      · rw [hraw]
        exact h.fault
      · rw [hraw]
        exact hqueue
      · simp [hraw, hpending, hp, hq, ← append_assoc]
      · simp only [Reader.left, Reader.rest, hraw, hpending, hp, hq, List.nil_append,
          List.flatten_cons, length_append, List.length_drop, List.length_cons]
        omega

-- Messages of a supported size, and destinations that are not empty.
def Event.Supported : Event → Prop
  | .receive m => m.length ≤ maxPacketMessageSize
  | .read size => 1 ≤ size

theorem step_spec (h : r.Sound) (he : e.Supported) :
    (r.step e).snd.Sound ∧ ¬(r.step e).fst.isFailed ∧
      (r.step e).fst.data ++ (r.step e).snd.rest = r.rest ++ e.message := by
  cases e
  case read =>
    have ⟨hsound, hok, hdata, _⟩ := read_spec h he
    exact ⟨hsound, hok, by simpa [Reader.step] using hdata⟩
  case receive =>
    refine ⟨⟨h.fault, fun m' hm' => ?_⟩, nofun, ?_⟩
    · rcases List.mem_append.mp hm' with hm' | hm'
      · exact h.sizes m' hm'
      · exact List.mem_singleton.mp hm' ▸ he
    · simp [Reader.step, Reader.receive]

theorem run_spec (h : r.Sound) (hes : ∀ e ∈ es, e.Supported) :
    (r.run es).snd.Sound ∧ (∀ x ∈ (r.run es).fst, ¬x.isFailed) ∧
      (r.run es).fst.flatMap ReadResult.data ++ (r.run es).snd.rest =
        r.rest ++ es.flatMap Event.message := by
  induction es generalizing r
  case nil => exact ⟨h, nofun, by simp⟩
  case cons hi =>
    have ⟨he, hes⟩ := List.forall_mem_cons.mp hes
    have ⟨hsound, hok, hdata⟩ := step_spec h he
    have ⟨hsound', hok', hdata'⟩ := hi hsound hes
    refine ⟨hsound', List.forall_mem_cons.mpr ⟨hok, hok'⟩, ?_⟩
    simp only [Reader.run, List.flatMap_cons, append_assoc, hdata']
    rw [← append_assoc, hdata, append_assoc]

theorem left_run (h : r.Sound) {sizes : List Nat} (hs : ∀ size ∈ sizes, 1 ≤ size) :
    (r.run (sizes.map .read)).snd.left ≤ r.left - sizes.length := by
  induction sizes generalizing r
  case nil => simp
  case cons hi =>
    have ⟨hsize, hs⟩ := List.forall_mem_cons.mp hs
    have ⟨hsound, _, _, hleft⟩ := read_spec h hsize
    have hrest := hi hsound hs
    simp only [List.map_cons, Reader.run, Reader.step, List.length_cons]
    omega

theorem run_append (r : Reader) (es es' : List Event) :
    (r.run (es ++ es')).fst = (r.run es).fst ++ ((r.run es).snd.run es').fst := by
  induction es generalizing r
  case nil => rfl
  case cons hi => simp [hi]

end Read

namespace Sample

-- A channel that was closed at the other end.
def refusing : Link Unit where
  waitWriteBudget _ := (none, ())
  reserveSharedWriteBudgets _ _ := (none, ())
  writeDataChannel _ _ := ((0, some .connClosed), ())
  releaseSharedWriteBudgets _ _ := ()
  taken_le _ _ := Nat.zero_le _

end Sample

end GizClaw.WebRTC

import GizClaw.PendingDeletion.Theorems.Listing

-- Cursors lead through all tasks. A cursor stands for what is left of the listing after the task or
-- the member that it names.

namespace GizClaw.PendingDeletion

open Interleaving Paging
open KV (OrderedRange)
open Except (bind_ok exists_of_mem_mapM)

variable {P : Platform} {σ : Store} {src : KVSource} {task task' : Task} {t : Time}

section Merge

variable {sources : List (KVSource × Store)} {f : KVSource × Store → List Task} {l : List Task}

-- The relation that tasks are sorted by.
theorem not_taskLess_iff : (¬taskLess task' task) ↔ order task ≤ order task' := by
  rw [taskLess_iff, not_lt]

theorem ascending_insertionSort (hd : l.Nodup) (hi : ∀ a ∈ l, ∀ b ∈ l, order a = order b → a = b) :
    Ascending order (l.insertionSort fun a b => ¬taskLess b a) := by
  have hs : (l.insertionSort fun a b => ¬taskLess b a).Pairwise fun a b => ¬taskLess b a := by
    have : IsTrans Task fun a b => ¬taskLess b a = true :=
      ⟨fun a b c => by simpa only [not_taskLess_iff] using le_trans⟩
    have : Std.Total fun a b : Task => ¬taskLess b a = true :=
      ⟨fun a b => by simpa only [not_taskLess_iff] using le_total (order a) (order b)⟩
    exact List.pairwise_insertionSort _ l
  have hp := List.perm_insertionSort (fun a b : Task => ¬taskLess b a) l
  refine (hs.and (hp.nodup_iff.mpr hd)).imp_of_mem fun {a b} ha hb ⟨hle, hne⟩ => ?_
  refine lt_of_le_of_ne (not_taskLess_iff.mp hle) fun he => hne ?_
  exact hi a (hp.mem_iff.mp ha) b (hp.mem_iff.mp hb) he

-- Lists of different sources have no task in common.
theorem nodup_parts (hn : (sources.map (·.fst.name)).Nodup) (hf : ∀ e ∈ sources, (f e).Nodup)
    (hs : ∀ e ∈ sources, ∀ task ∈ f e, task.source = e.fst.name) :
    (sources.map f).flatten.Nodup := by
  induction sources
  case nil => simp
  case cons hi =>
    simp only [List.mem_cons, forall_eq_or_imp] at hf hs
    have ⟨hne, hn⟩ := List.nodup_cons.mp hn
    rw [List.map_cons, List.flatten_cons, List.nodup_append]
    refine ⟨hf.left, hi hn hf.right hs.right, fun task ht task' ht' he => hne ?_⟩
    subst he
    simp only [List.mem_flatten, List.mem_map, exists_exists_and_eq_and] at ht'
    have ⟨e', he', ht'⟩ := ht'
    rw [List.mem_map]
    exact ⟨e', he', (hs.right e' he' task ht').symm.trans (hs.left task ht)⟩

end Merge

section Admin

variable {r : Registry} {request : ListRequest} {limit : Int} {last : Option Task}

def Registry.Sound (P : Platform) (r : Registry) : Prop :=
  ∀ e ∈ r.entries, PendingDeletion.Sound P e.snd

structure Selects (r : Registry) (request : ListRequest) (e : KVSource × Store) : Prop where
  mem : e ∈ r.entries
  name : request.source = [] ∨ e.fst.name = request.source

structure Filters (request : ListRequest) (task : Task) : Prop where
  kind : ∀ kind ∈ request.kind, task.record.kind = kind
  status : ∀ status ∈ request.status, task.status = status
  start : ∀ t ∈ request.startTime, t ≤ task.record.deletedAt
  stop : ∀ t ∈ request.endTime, task.record.deletedAt < t

-- The tasks that are asked for.
def Selected (r : Registry) (request : ListRequest) (task : Task) : Prop :=
  ∃ e, Selects r request e ∧ Owned e.fst e.snd task ∧ Filters request task

-- Other requests are rejected.
structure Accepted (r : Registry) (request : ListRequest) : Prop where
  source : request.source = [] ∨ ∃ e ∈ r.entries, e.fst.name = request.source
  times : ∀ t ∈ request.startTime, ∀ t' ∈ request.endTime, t < t'

-- The options of a page that starts after the last task of the one before.
def pageOptions (request : ListRequest) (limit : Int) (last : Option Task) : SourceListOptions :=
  listOptions request limit (last.map (encodeListCursor request))

theorem taskMatches_iff : taskMatches task (pageOptions request limit last) = true ↔
    Filters request task ∧ ∀ t ∈ last, order t < order task := by
  have hk : (request.kind.toList = [] ∨ task.record.kind ∈ request.kind.toList) ↔
      ∀ kind ∈ request.kind, task.record.kind = kind := by
    cases request.kind <;> simp
  have hs : (request.status.toList = [] ∨ task.status ∈ request.status.toList) ↔
      ∀ status ∈ request.status, task.status = status := by
    cases request.status <;> simp
  have hl : (∀ t ∈ (last.map (encodeListCursor request)).map (·.createdAt),
      t < task.record.deletedAt ∨ (task.record.deletedAt = t ∧
        if task.source ≠ (pageOptions request limit last).afterSource then
          (pageOptions request limit last).afterSource < task.source
        else (pageOptions request limit last).afterDeletionID < task.record.deletionID)) ↔
      ∀ t ∈ last, order t < order task := by
    cases last
    case none => simp
    case some t =>
      simp only [Option.map_some, Option.mem_def, Option.some.injEq, forall_eq', pageOptions,
        listOptions, encodeListCursor, Option.getD_some, order, Prod.Lex.toLex_lt_toLex]
      rw [eq_comm (a := task.record.deletedAt), eq_comm (a := t.source) (b := task.source)]
      refine or_congr_right (and_congr_right fun _ => ?_)
      by_cases he : task.source = t.source <;> simp [he]
  simp only [taskMatches, Bool.decide_and, Bool.and_eq_true, decide_eq_true_eq]
  rw [show (pageOptions request limit last).kinds = request.kind.toList from rfl,
    show (pageOptions request limit last).statuses = request.status.toList from rfl,
    show (pageOptions request limit last).afterCreatedAt =
      (last.map (encodeListCursor request)).map (·.createdAt) from rfl, hk, hs, hl]
  constructor
  case mp =>
    rintro ⟨h₁, h₂, h₃, h₄, h₅⟩
    exact ⟨⟨h₁, h₂, fun t ht => not_lt.mp (h₃ t ht), h₄⟩, h₅⟩
  case mpr =>
    rintro ⟨h, h₅⟩
    exact ⟨h.kind, h.status, fun t ht => not_lt.mpr (h.start t ht), h.stop, h₅⟩

theorem selectedSources_eq (h : Accepted r request) : ∃ sources,
    selectedSources P r request.source = .ok sources ∧
    (∀ e, e ∈ sources ↔ Selects r request e) ∧ (sources.map (·.fst.name)).Nodup := by
  unfold selectedSources
  by_cases hn : request.source = []
  case pos =>
    have hp := List.perm_insertionSort
      (fun a b : KVSource × Store => a.fst.name ≤ b.fst.name) r.entries
    refine ⟨r.sources, if_pos hn, fun e => ?_, ?_⟩
    · rw [Registry.sources, hp.mem_iff]
      exact ⟨fun he => ⟨he, .inl hn⟩, fun he => he.mem⟩
    · exact (hp.map _).nodup_iff.mpr r.nodup
  case neg =>
    have ⟨e, he, hname⟩ := h.source.resolve_left hn
    have hfind : r.source request.source = some e := by
      unfold Registry.source
      cases hf : r.entries.find? (·.fst.name = request.source)
      case none => simpa [hname] using List.find?_eq_none.mp hf e he
      case some e' =>
        have hname' : e'.fst.name = request.source := by simpa using List.find?_some hf
        rw [List.inj_on_of_nodup_map r.nodup (List.mem_of_find?_eq_some hf) he
          (hname'.trans hname.symm)]
    have htrim : P.trimSpace request.source = request.source := by
      have hv := validateSource_eq_ok (P := P) (r.valid e he).left
      have ⟨hn, hv⟩ := Except.ite_error_eq_ok.mp hv
      rw [← hname]; exact (not_ne_iff.mp (not_or.mp hn).right).symm
    refine ⟨[e], ?_, fun e' => ?_, by simp⟩
    · rw [if_neg hn]
      unfold requireSource
      rw [htrim, if_neg (by simp [hn]), hfind]
      rfl
    · rw [List.mem_singleton]
      constructor
      case mp => rintro rfl; exact ⟨he, .inr hname⟩
      case mpr =>
        intro hs
        have hname' := hs.name.resolve_left hn
        exact List.inj_on_of_nodup_map r.nodup hs.mem he (hname'.trans hname.symm)

-- What is left of a listing after the last task of a page.
structure Left (r : Registry) (request : ListRequest) (last : Option Task) (l : List Task) :
    Prop where
  ascending : Ascending order l
  mem : ∀ task, task ∈ l ↔ Selected r request task ∧ ∀ t ∈ last, order t < order task

-- The task may be named by a cursor.
structure Resumable (P : Platform) (r : Registry) (request : ListRequest) (task : Task) : Prop where
  selected : Selected r request task
  valid : validDeletionID P task.record.deletionID = true

theorem Selected.isName (h : Selected r request task) : isName task.source = true := by
  have ⟨e, hs, ho, _⟩ := h
  rw [ho.source]
  exact (r.valid e hs.mem).left

theorem Resumable.parseUUID (h : Resumable P r request task) :
    parseUUID task.record.deletionID = true := by
  have hv := h.valid
  simp only [validDeletionID, decide_eq_true_eq] at hv
  exact hv.right.right

theorem cursorOk (h : ∀ t ∈ last, Resumable P r request t) :
    CursorOk src (pageOptions request limit last) := by
  intro _ hs
  rcases last with - | t
  case none => simp [pageOptions, listOptions] at hs
  case some => exact (h t rfl).parseUUID

section Page

variable (hr : r.Sound P) (hs : ∀ task, Selected r request task → slash ∉ task.record.deletionID)
  (hl : ∀ t ∈ last, Resumable P r request t)
include hr hs hl

section Parts

variable {e : KVSource × Store} (he : Selects r request e)
include he

omit hr hl in
theorem slash_notMem_part (task : Task) (ho : Owned e.fst e.snd task)
    (hm : taskMatches task (pageOptions request limit last) = true) :
    slash ∉ task.record.deletionID :=
  hs task ⟨e, he, ho, (taskMatches_iff.mp hm).left⟩

theorem mem_part : task ∈ tasksOf P e.fst e.snd (pageOptions request limit last) ↔
    Owned e.fst e.snd task ∧ Filters request task ∧ ∀ t ∈ last, order t < order task := by
  rw [mem_tasksOf (hr e he.mem) (r.valid e he.mem).left (cursorOk hl) (slash_notMem_part hs he),
    taskMatches_iff]

theorem ascending_part : Ascending order (tasksOf P e.fst e.snd (pageOptions request limit last)) :=
  ascending_tasksOf (hr e he.mem) (r.valid e he.mem).left (cursorOk hl)
    (slash_notMem_part hs he)

theorem listTasks_eq (hlim : 0 ≤ limit) : listTasks P (pageOptions request limit last) e =
    .ok ((tasksOf P e.fst e.snd (pageOptions request limit last)).take (limit.toNat + 1)) := by
  have hlen : (pageOptions request limit last).limit.toNat = limit.toNat + 1 := by
    simp only [pageOptions, listOptions]
    omega
  unfold listTasks
  rw [listIndexedTasks_eq (hr e he.mem) (r.valid e he.mem).left (cursorOk hl)
    (slash_notMem_part hs he) (r.valid e he.mem).right.left
    (by simp only [pageOptions, listOptions]; omega), bind_ok, hlen, Except.forM_eq_ok,
    bind_ok]
  intro task ht
  have ho := ((mem_part hr hs hl he).mp (List.mem_of_mem_take ht)).left
  exact ho.validateTask (hr e he.mem) (r.valid e he.mem).left

end Parts

section Merged

variable {sources : List (KVSource × Store)} (hsrc : ∀ e, e ∈ sources ↔ Selects r request e)
  (hnd : (sources.map (·.fst.name)).Nodup) {f : KVSource × Store → List Task}
  (hsub : ∀ e ∈ sources,
    (f e).Sublist (tasksOf P e.fst e.snd (pageOptions request limit last)))
include hsrc hnd hsub

theorem ascending_merged :
    Ascending order ((sources.map f).flatten.insertionSort fun a b => ¬taskLess b a) := by
  have howned : ∀ task ∈ (sources.map f).flatten, ∃ e ∈ sources, Owned e.fst e.snd task := by
    intro task ht
    simp only [List.mem_flatten, List.mem_map, exists_exists_and_eq_and] at ht
    have ⟨e, he, ht⟩ := ht
    exact ⟨e, he, ((mem_part hr hs hl ((hsrc e).mp he)).mp ((hsub e he).subset ht)).left⟩
  refine ascending_insertionSort (nodup_parts hnd (fun e he => ?_) fun e he task ht => ?_) ?_
  · exact (ascending_part hr hs hl ((hsrc e).mp he)).nodup.sublist (hsub e he)
  · exact ((mem_part hr hs hl ((hsrc e).mp he)).mp ((hsub e he).subset ht)).left.source
  · intro a ha b hb hab
    have ⟨e, he, ho⟩ := howned a ha
    have ⟨e', he', ho'⟩ := howned b hb
    simp only [order, EmbeddingLike.apply_eq_iff_eq, Prod.mk.injEq] at hab
    obtain rfl : e = e' := List.inj_on_of_nodup_map hnd he he'
      (ho.source.symm.trans (hab.right.left.trans ho'.source))
    exact ho.eq ho' hab.right.right

end Merged

theorem exists_left (ha : Accepted r request) : ∃ l, Left r request last l := by
  have ⟨sources, _, hsrc, hnd⟩ := selectedSources_eq (P := P) ha
  refine ⟨_, ascending_merged hr hs hl hsrc hnd
    (f := fun e => tasksOf P e.fst e.snd (pageOptions request 0 last))
    (fun e _ => .refl (tasksOf P e.fst e.snd (pageOptions request 0 last))), fun task => ?_⟩
  simp only [List.mem_insertionSort, List.mem_flatten, List.mem_map, exists_exists_and_eq_and]
  constructor
  case mp =>
    rintro ⟨e, he, ht⟩
    have ⟨ho, hf, hlt⟩ := (mem_part hr hs hl ((hsrc e).mp he)).mp ht
    exact ⟨⟨e, (hsrc e).mp he, ho, hf⟩, hlt⟩
  case mpr =>
    rintro ⟨⟨e, he, ho, hf⟩, hlt⟩
    exact ⟨e, (hsrc e).mpr he, (mem_part hr hs hl he).mpr ⟨ho, hf, hlt⟩⟩

-- What a page is cut from: the first tasks of each source, and one more than there is room for.
def pageTasks (P : Platform) (sources : List (KVSource × Store)) (request : ListRequest)
    (limit : Int) (last : Option Task) : List Task :=
  (sources.map fun e => (tasksOf P e.fst e.snd (pageOptions request limit last)).take
    (limit.toNat + 1)).flatten.insertionSort fun a b => ¬taskLess b a

section Cut

variable {sources : List (KVSource × Store)} (hsrc : ∀ e, e ∈ sources ↔ Selects r request e)
include hsrc

theorem take_pageTasks (hnd : (sources.map (·.fst.name)).Nodup) (hleft : Left r request last l) :
    (pageTasks P sources request limit last).take (limit.toNat + 1) = l.take (limit.toNat + 1) := by
  refine take_eq_of_prefixes (k := order)
    (L := sources.map fun e => tasksOf P e.fst e.snd (pageOptions request limit last))
    ?_ hleft.ascending
    (ascending_merged hr hs hl hsrc hnd fun e _ => List.take_sublist _
      (tasksOf P e.fst e.snd (pageOptions request limit last))) ?_ ?_
  · simp only [List.mem_map, forall_exists_index, and_imp, forall_apply_eq_imp_iff₂]
    exact fun e he => ascending_part hr hs hl ((hsrc e).mp he)
  · intro task
    rw [hleft.mem]
    simp only [List.mem_map, exists_exists_and_eq_and]
    constructor
    case mp =>
      rintro ⟨⟨e, he, ho, hf⟩, hlt⟩
      exact ⟨e, (hsrc e).mpr he, (mem_part hr hs hl he).mpr ⟨ho, hf, hlt⟩⟩
    case mpr =>
      rintro ⟨e, he, ht⟩
      have ⟨ho, hf, hlt⟩ := (mem_part hr hs hl ((hsrc e).mp he)).mp ht
      exact ⟨⟨e, (hsrc e).mp he, ho, hf⟩, hlt⟩
  · intro task
    simp [pageTasks]

theorem list_eq_cut (hsel : selectedSources P r request.source = .ok sources)
    (ha : Accepted r request) (hsize : size = if limit = 0 then defaultListLimit else limit)
    (hrange : 1 ≤ size ∧ size ≤ 500) :
    list P r { request with limit := limit, cursor := last.map (encodeListCursor request) } =
    .ok ((pageTasks P sources request size last).take size.toNat,
      if size < (pageTasks P sources request size last).length then
        ((pageTasks P sources request size last).take size.toNat).getLast?.map
          (encodeListCursor request)
      else none) := by
  have hcursor : decodeListCursor P
      { request with limit := limit, cursor := last.map (encodeListCursor request) } =
      .ok (last.map (encodeListCursor request)) := by
    rcases last with - | t
    case none => rfl
    case some =>
      have ht := hl t rfl
      simp [decodeListCursor, encodeListCursor, ht.selected.isName, ht.valid]
  have hparts : sources.mapM (listTasks P (pageOptions request size last)) =
      .ok (sources.map fun e => (tasksOf P e.fst e.snd (pageOptions request size last)).take
        (size.toNat + 1)) :=
    Except.mapM_eq_ok_map fun e he => listTasks_eq hr hs hl ((hsrc e).mp he) (by omega)
  have htimes : ¬∃ t ∈ request.startTime, ∃ t' ∈ request.endTime, ¬t < t' := by
    rintro ⟨t, ht, t', ht', hn⟩
    exact hn (ha.times t ht t' ht')
  unfold list
  rw [← hsize, if_neg (by unfold maxListLimit; omega), if_neg htimes, hcursor, bind_ok, hsel,
    bind_ok]
  change (sources.mapM (listTasks P (pageOptions request size last)) >>= _) = _
  rw [hparts, bind_ok]
  rfl

end Cut

-- One call of `list`, for the cursor that the call before it may have returned.
theorem list_eq (ha : Accepted r request) (hleft : Left r request last l)
    (hlim : 0 ≤ limit ∧ limit ≤ 500) : ∃ n next, 0 < n ∧
    list P r { request with limit := limit, cursor := last.map (encodeListCursor request) } =
      .ok (l.take n, next) ∧
    (next = none ∧ l.length ≤ n ∨
      ∃ t, next = some (encodeListCursor request t) ∧ n < l.length ∧
        (l.take n).getLast? = some t) := by
  have ⟨sources, hsel, hsrc, hnd⟩ := selectedSources_eq (P := P) ha
  obtain ⟨size, hsize⟩ : ∃ size, size = if limit = 0 then defaultListLimit else limit := ⟨_, rfl⟩
  have hrange : 1 ≤ size ∧ size ≤ 500 := by
    rw [hsize]
    unfold defaultListLimit
    split <;> omega
  have hall : (pageTasks P sources request size last).take (size.toNat + 1) =
      l.take (size.toNat + 1) :=
    take_pageTasks hr hs hl hsrc hnd hleft
  have hpage : (pageTasks P sources request size last).take size.toNat = l.take size.toNat := by
    have := congrArg (List.take size.toNat) hall
    simpa [List.take_take] using this
  have hmore : size < (pageTasks P sources request size last).length ↔ size.toNat < l.length := by
    have := congrArg List.length hall
    simp only [List.length_take] at this
    omega
  have hlist := list_eq_cut hr hs hl hsrc hsel ha hsize hrange
  rw [hpage] at hlist
  refine ⟨size.toNat, _, by omega, hlist, ?_⟩
  by_cases h : size.toNat < l.length
  case neg => exact .inl ⟨if_neg (mt hmore.mp h), by omega⟩
  case pos =>
    have ⟨t, ht⟩ : ∃ t, (l.take size.toNat).getLast? = some t := by
      cases hg : (l.take size.toNat).getLast?
      case some t => exact ⟨t, rfl⟩
      case none =>
        have := congrArg List.length (List.getLast?_eq_none_iff.mp hg)
        simp only [List.length_take, List.length_nil] at this
        omega
    exact .inr ⟨t, by rw [if_pos (hmore.mpr h), ht]; rfl, h, ht⟩

end Page

-- The limit may change from page to page.
def fetchList (P : Platform) (r : Registry) (request : ListRequest) (limits : Nat → Int) (i : Nat)
    (cursor : Option ListCursor) : Except Err (List Task × Option ListCursor) :=
  list P r { request with limit := limits i, cursor := cursor }

-- The listing at a cursor.
def ListAt (P : Platform) (r : Registry) (request : ListRequest) (cursor : Option ListCursor)
    (l : List Task) : Prop :=
  ∃ last, cursor = last.map (encodeListCursor request) ∧
    (∀ t ∈ last, Resumable P r request t) ∧ Left r request last l

theorem Left.drop {t : Task} (h : Left r request last l)
    (ht : (l.take n).getLast? = some t) : Left r request (some t) (l.drop n) := by
  have ⟨pre, hpre⟩ := List.getLast?_eq_some_iff.mp ht
  have hl : l = pre ++ t :: l.drop n := by
    have := List.take_append_drop n l
    rw [hpre] at this
    simpa using this.symm
  refine ⟨h.ascending.sublist (List.drop_sublist n l), fun task => ?_⟩
  have hmem := Ascending.mem_of_append (y := task) (hl ▸ h.ascending)
  rw [← hl, h.mem] at hmem
  rw [hmem]
  have htl : t ∈ l := by
    rw [hl]
    simp
  have hlast := ((h.mem t).mp htl).right
  simp only [Option.mem_def, Option.some.injEq, forall_eq']
  exact ⟨fun ⟨hs, hlt⟩ => ⟨hs.left, hlt⟩, fun ⟨hs, hlt⟩ => ⟨⟨hs, fun t' ht' =>
    (hlast t' ht').trans hlt⟩, hlt⟩⟩

theorem follow_list (hr : r.Sound P)
    (hs : ∀ task, Selected r request task → slash ∉ task.record.deletionID)
    (hv : ∀ t t', Selected r request t → Selected r request t' → order t < order t' →
      validDeletionID P t.record.deletionID = true) (ha : Accepted r request)
    (hlim : ∀ i, 0 ≤ limits i ∧ limits i ≤ 500) (hl : Left r request none l) {fuel : Nat}
    (hf : l.length < fuel) : follow (fetchList P r request limits) fuel 0 none = .ok (some l) := by
  refine follow_eq (A := ListAt P r request) (fun i cursor l hat => ?_) ⟨none, rfl, by simp, hl⟩ hf
  obtain ⟨last, rfl, hlast, hleft⟩ := hat
  have ⟨n, next, hn, hlist, hnext⟩ := list_eq hr hs hlast ha hleft (hlim i)
  refine ⟨n, next, hn, hlist, ?_⟩
  rcases hnext with hnone | ⟨t, rfl, hlt, ht⟩
  case inl => exact .inl hnone
  case inr =>
    refine .inr ⟨_, rfl, hlt, some t, rfl, ?_, hleft.drop ht⟩
    rintro _ ⟨⟩
    have hsel : Selected r request t :=
      ((hleft.mem t).mp (List.mem_of_mem_take (List.mem_of_getLast? ht))).left
    -- The page is not the last one, so some task comes after `t`.
    have ⟨t', ht'⟩ := List.exists_mem_of_length_pos (l := l.drop n)
      (by rw [List.length_drop]; omega)
    have ⟨hsel', hord⟩ := ((hleft.drop ht).mem t').mp ht'
    exact ⟨hsel, hv t t' hsel hsel' (hord t rfl)⟩

section Converse

variable {limits : Nat → Int} {i j : Nat} {cursor : Option ListCursor} {page : List Task}
  {next : Option ListCursor}

theorem slash_notMem_of_collectTasks (h : collectTasks P src σ options room ms = .ok tasks) :
    ∀ task ∈ tasks, slash ∉ task.record.deletionID := by
  induction ms generalizing room tasks
  case nil => cases room <;> cases h <;> simp
  case cons hi =>
    cases room
    case zero => cases h; simp
    case succ =>
      obtain ⟨⟨_, id, fp⟩, hp, h⟩ := Except.bind_eq_ok.mp h
      dsimp only at h
      split at h
      case h_1 => exact hi h
      case h_2 => contradiction
      case h_3 hload =>
        split at h
        case isTrue => exact hi h
        case isFalse =>
          obtain ⟨tasks, ht, h⟩ := Except.bind_eq_ok.mp h
          cases h
          simp only [List.mem_cons, forall_eq_or_imp]
          exact ⟨eval_loadTask_eq_ok hload ▸ slash_notMem_of_parse hp, hi ht⟩

section

variable (h : fetchList P r request limits i cursor = .ok (page, next))
include h

-- What a successful call went through.
theorem list_eq_ok :
    ∃ parts : List (List Task), (∀ tasks ∈ parts, ∀ task ∈ tasks, slash ∉ task.record.deletionID) ∧
    (∀ c ∈ cursor, validDeletionID P c.deletionID = true) ∧
    page = (parts.flatten.insertionSort fun a b => ¬taskLess b a).take
      (if limits i = 0 then defaultListLimit else limits i).toNat ∧
    ∀ c, next = some c → ∃ t, page.getLast? = some t ∧ c = encodeListCursor request t := by
  unfold fetchList list at h
  dsimp only at h
  generalize (if limits i = 0 then defaultListLimit else limits i) = size at h ⊢
  split_ifs at h
  have ⟨c, hc, h⟩ := Except.bind_eq_ok.mp h
  have ⟨sources, _, h⟩ := Except.bind_eq_ok.mp h
  have ⟨parts, hp, h⟩ := Except.bind_eq_ok.mp h
  obtain ⟨rfl, rfl⟩ := h
  refine ⟨parts, fun tasks ht => ?_, ?_, rfl, fun c hc => ?_⟩
  · have ⟨e, _, he⟩ := exists_of_mem_mapM hp ht
    have ⟨tasks', hi, he⟩ := Except.bind_eq_ok.mp he
    have ⟨_, _, he⟩ := Except.bind_eq_ok.mp he
    cases he
    have ⟨_, _, hi⟩ := Except.bind_eq_ok.mp hi
    have ⟨_, hi⟩ := Except.ite_error_eq_ok.mp hi
    have ⟨ms, _, hi⟩ := Except.bind_eq_ok.mp hi
    exact slash_notMem_of_collectTasks hi
  · rintro c rfl
    simp only [decodeListCursor] at hc
    split_ifs at hc with _ hn
    simpa using (not_or.mp hn).right
  · have ⟨_, hc⟩ := Option.ite_none_right_eq_some.mp hc
    have ⟨t, ht, hc⟩ := Option.map_eq_some_iff.mp hc
    exact ⟨t, ht, hc.symm⟩

theorem slash_notMem_of_list : ∀ task ∈ page, slash ∉ task.record.deletionID := by
  have ⟨parts, hp, _, hpage, _⟩ := list_eq_ok h
  intro task ht
  rw [hpage] at ht
  have ht := List.mem_of_mem_take ht
  rw [List.mem_insertionSort, List.mem_flatten] at ht
  have ⟨tasks, hm, ht⟩ := ht
  exact hp tasks hm task ht

end

theorem length_of_list (h : fetchList P r request (fun _ => 1) i cursor = .ok (page, next)) :
    page.length ≤ 1 := by
  have ⟨parts, _, _, hpage, _⟩ := list_eq_ok h
  rw [hpage]
  exact List.length_take_le _ _

theorem validDeletionID_of_list
    (h : fetchList P r request (fun _ => 1) i cursor = .ok (page, some c))
    (h' : fetchList P r request (fun _ => 1) j (some c) = .ok res) :
    ∀ task ∈ page, validDeletionID P task.record.deletionID = true := by
  have hlen := length_of_list h
  have ⟨_, _, _, _, hc⟩ := list_eq_ok h
  have ⟨t, ht, hc⟩ := hc c rfl
  have ⟨_, _, hv, _⟩ := list_eq_ok h'
  have hv := hv c rfl
  rw [hc] at hv
  intro task hm
  have ⟨pre, hpre⟩ := List.getLast?_eq_some_iff.mp ht
  have hnil : pre = [] := by
    rw [hpre] at hlen
    exact List.eq_nil_of_length_eq_zero (by simpa using hlen)
  rw [hpre, hnil, List.nil_append, List.mem_singleton] at hm
  rw [hm]
  exact hv

end Converse

-- The pages of a listing are exactly the tasks that are asked for, in order, whatever the limits.
def ListsExactly (P : Platform) (r : Registry) (request : ListRequest) : Prop :=
  ∀ limits : Nat → Int, (∀ i, 0 ≤ limits i ∧ limits i ≤ 500) →
    ∃ l : List Task, l.Pairwise (fun a b => taskLess a b) ∧
      (∀ task, task ∈ l ↔ Selected r request task) ∧
      ∃ enough, ∀ fuel ≥ enough, follow (fetchList P r request limits) fuel 0 none = .ok (some l)

theorem listsExactly_iff (hr : r.Sound P) (ha : Accepted r request) : ListsExactly P r request ↔
    (∀ task, Selected r request task → slash ∉ task.record.deletionID) ∧
    ∀ task task', Selected r request task → Selected r request task' → taskLess task task' →
      validDeletionID P task.record.deletionID := by
  simp only [ListsExactly, taskLess_iff]
  constructor
  case mp =>
    intro h
    have ⟨l, hasc, hmem, enough, hl⟩ := h (fun _ => 1) (by simp)
    have hl := hl enough le_rfl
    refine ⟨fun task ht => ?_, fun task task' ht ht' hlt => ?_⟩
    · exact follow_forall (fun _ _ _ _ h => slash_notMem_of_list h) hl task ((hmem task).mpr ht)
    · have hlen : ∀ i cursor page next,
          fetchList P r request (fun _ => 1) i cursor = .ok (page, next) → page.length ≤ 1 :=
        fun _ _ _ _ => length_of_list
      have hvalid : ∀ i j cursor page c res,
          fetchList P r request (fun _ => 1) i cursor = .ok (page, some c) →
          fetchList P r request (fun _ => 1) j (some c) = .ok res →
          ∀ task ∈ page, validDeletionID P task.record.deletionID = true :=
        fun _ _ _ _ _ _ => validDeletionID_of_list
      refine follow_dropLast hlen hvalid hl task ?_
      exact Ascending.mem_dropLast hasc ((hmem task).mpr ht) ((hmem task').mpr ht') hlt
  case mpr =>
    rintro ⟨hs, hv⟩ limits hlim
    have ⟨l, hl⟩ : ∃ l, Left r request none l := exists_left hr hs (by simp) ha
    exact ⟨l, hl.ascending, fun task => by simpa using hl.mem task, l.length + 1, fun fuel hf =>
      follow_list hr hs hv ha hlim hl (by omega)⟩

end Admin

section Due

variable {now : Time} {limit : Int} {cursor : Option Text} {x : Text} {limits : Nat → Int}

structure Due (src : KVSource) (σ : Store) (now : Time) (task : Task) : Prop where
  owned : Owned src σ task
  due : taskDue task now = true

-- A valid task has a time unless it has failed.
theorem taskDue_iff (h : validateTaskState task = .ok ()) :
    taskDue task now = true ↔ dueAt task ≠ 0 ∧ dueAt task ≤ now := by
  have ⟨_, _, h⟩ := Except.bind_eq_ok.mp h
  split_ifs at h with _ _ _ hrun _ hdue
  cases hst : task.status <;> simp_all [taskDue, dueAt]

theorem contains_due_iff :
    (dueQuery P now limit cursor).Contains (kvIndexMember P (dueAt task) task) ↔
    dueAt task ≤ now ∧ ∀ c ∈ cursor, c < kvIndexMember P (dueAt task) task := by
  unfold OrderedRange.Contains
  simp only [dueQuery, Option.mem_def, Option.some.injEq, forall_eq', member_lt_format_sentinel_iff]
  exact and_comm

theorem mem_inRange_due (hσ : Sound P σ) :
    x ∈ inRange σ (dueKeys src) (dueQuery P now limit cursor) ↔
    (∃ task, Due src σ now task ∧ x = kvIndexMember P (dueAt task) task) ∧ ∀ c ∈ cursor, c < x := by
  rw [mem_inRange]
  constructor
  case mp =>
    rintro ⟨k, hk, hx, hq⟩
    have ⟨kind, shard, hk, hown⟩ := mem_dueKeys.mp hk
    subst hk
    have ⟨task, hs, hl⟩ := (hσ.index _ (.due ..) x).mp hx
    have ⟨hk, _, hne, he⟩ := lists_due_iff.mp hl
    subst hk he
    have ⟨hle, hc⟩ := contains_due_iff.mp hq
    have hdue := (taskDue_iff (hσ.valid task hs).right.right).mpr ⟨hne, hle⟩
    exact ⟨⟨_, ⟨hs.owned hown, hdue⟩, rfl⟩, hc⟩
  case mpr =>
    rintro ⟨⟨task, hd, rfl⟩, hc⟩
    have ⟨hne, hle⟩ := (taskDue_iff (hσ.valid task hd.owned.stored).right.right).mp hd.due
    refine ⟨_, mem_dueKeys.mpr ⟨_, kvTaskShard P task.record.deletionID, rfl, hd.owned.kind⟩,
      (hσ.index _ (.due ..) _).mpr ⟨task, hd.owned.stored, ?_⟩, contains_due_iff.mpr ⟨hle, hc⟩⟩
    exact lists_due_iff.mpr ⟨rfl, rfl, hne, rfl⟩

def fetchDue (P : Platform) (src : KVSource) (σ : Store) (now : Time) (limits : Nat → Int) (i : Nat)
    (cursor : Option Text) : Except Err (List Reference × Option Text) :=
  scanIndexedDue P src σ now (limits i) cursor

def Task.ref (task : Task) : Reference where
  source := task.source
  deletionID := task.record.deletionID
  markerFingerprint := task.markerFingerprint

-- The references that are left after a cursor, and the members that they are read from.
structure DueAt (P : Platform) (src : KVSource) (σ : Store) (now : Time) (cursor : Option Text)
    (ms : List Text) (refs : List Reference) : Prop where
  ascending : Ascending id ms
  mem : ∀ x, x ∈ ms ↔
    (∃ task, Due src σ now task ∧ x = kvIndexMember P (dueAt task) task) ∧ ∀ c ∈ cursor, c < x
  refs : ms.mapM (reference P src) = .ok refs
  cursor : ∀ c ∈ cursor, ∃ task, Due src σ now task ∧ c = kvIndexMember P (dueAt task) task

variable {ms : List Text} {refs : List Reference}

theorem DueAt.drop (h : DueAt P src σ now cursor ms refs) (hc : (ms.take n).getLast? = some c) :
    DueAt P src σ now (some c) (ms.drop n) (refs.drop n) := by
  have ⟨pre, hpre⟩ := List.getLast?_eq_some_iff.mp hc
  have hms : ms = pre ++ c :: ms.drop n := by
    have := List.take_append_drop n ms
    rw [hpre] at this
    simpa using this.symm
  have hcm : c ∈ ms := by
    rw [hms]
    simp
  have ⟨hdue, hlast⟩ := (h.mem c).mp hcm
  refine ⟨h.ascending.sublist (List.drop_sublist n ms), fun x => ?_, ?_, by simpa using hdue⟩
  · have hmem := Ascending.mem_of_append (y := x) (hms ▸ h.ascending)
    rw [← hms, h.mem] at hmem
    rw [hmem]
    simp only [Option.mem_def, Option.some.injEq, forall_eq']
    exact ⟨fun ⟨hs, hlt⟩ => ⟨hs.left, hlt⟩, fun ⟨hs, hlt⟩ => ⟨⟨hs, fun c' hc' =>
      (hlast c' hc').trans hlt⟩, hlt⟩⟩
  · exact Except.mapM_eq_ok.mpr (List.forall₂_drop n (Except.mapM_eq_ok.mp h.refs))

section Scan

variable (hσ : Sound P σ) (hn : isName src.name = true) (hk : src.ownedKinds ≠ [])
  (hs : ∀ task, Due src σ now task → slash ∉ task.record.deletionID)
include hσ

include hs in
theorem reference_member (hd : Due src σ now task) :
    reference P src (kvIndexMember P t task) = .ok task.ref := by
  unfold reference
  rw [parseKVIndexMember_owned hσ hd.owned (hs task hd), bind_ok, ← hd.owned.source]
  rfl

include hn hk hs in
theorem scan_eq (h : DueAt P src σ now cursor ms refs) (hlim : 0 < limit) : ∃ next,
    scanIndexedDue P src σ now limit cursor = .ok (refs.take limit.toNat, next) ∧
    (next = none ∧ refs.length ≤ limit.toNat ∨ ∃ c, next = some c ∧ limit.toNat < refs.length ∧
      (ms.take limit.toNat).getLast? = some c) := by
  have hms : inRange σ (dueKeys src) (dueQuery P now limit cursor) = ms :=
    Ascending.eq_of_mem_iff (ascending_sort _) h.ascending fun x =>
      (mem_inRange_due hσ).trans (h.mem x).symm
  have hkinds : ∀ k ∈ dueKeys src, σ.OfKind true k := by
    intro k hk
    have ⟨_, _, hk, _⟩ := mem_dueKeys.mp hk
    exact hk ▸ hσ.kinds _ (.due ..)
  have ⟨r, hr, _, _, htake⟩ := readKVTaskIndexes_eq (q := dueQuery P now limit cursor) hkinds
    (by simp only [dueQuery]; omega)
  have hlen : (dueQuery P now limit cursor).limit.toNat = limit.toNat + 1 := by
    simp only [dueQuery]
    omega
  rw [hms, hlen] at htake
  have hpage : r.take limit.toNat = ms.take limit.toNat := by
    have := congrArg (List.take limit.toNat) htake
    simpa [List.take_take] using this
  have hlength : ms.length = refs.length := (Except.mapM_eq_ok.mp h.refs).length_eq
  have hmore : limit < r.length ↔ limit.toNat < refs.length := by
    have := congrArg List.length htake
    simp only [List.length_take] at this
    omega
  have hrefs : (ms.take limit.toNat).mapM (reference P src) = .ok (refs.take limit.toNat) :=
    Except.mapM_eq_ok.mpr (List.forall₂_take limit.toNat (Except.mapM_eq_ok.mp h.refs))
  have hvalid : validateTaskSource src = .ok () := by
    unfold validateTaskSource
    rw [if_neg (by simp [hn, hk])]
  have hcursor : checkDueCursor P cursor = .ok () := by
    rcases cursor with - | c
    case none => rfl
    case some =>
      have ⟨task, hd, hc⟩ := h.cursor c rfl
      simp only [checkDueCursor, hc, parseKVIndexMember_owned hσ hd.owned (hs task hd),
        bind_ok]
  have hscan : scanIndexedDue P src σ now limit cursor =
      .ok (refs.take limit.toNat,
        if limit < r.length then (ms.take limit.toNat).getLast? else none) := by
    unfold scanIndexedDue
    rw [hvalid, bind_ok, if_neg (by omega), hcursor, bind_ok, hr, bind_ok]
    simp only [hpage, hrefs, bind_ok]
  refine ⟨_, hscan, ?_⟩
  by_cases hlt : limit.toNat < refs.length
  case neg => exact .inl ⟨if_neg (mt hmore.mp hlt), by omega⟩
  case pos =>
    have ⟨c, hc⟩ : ∃ c, (ms.take limit.toNat).getLast? = some c := by
      cases hg : (ms.take limit.toNat).getLast?
      case some c => exact ⟨c, rfl⟩
      case none =>
        have := congrArg List.length (List.getLast?_eq_none_iff.mp hg)
        simp only [List.length_take, List.length_nil] at this
        omega
    exact .inr ⟨c, by rw [if_pos (hmore.mpr hlt), hc], hlt, hc⟩

include hn hk hs in
theorem follow_due (hlim : ∀ i, 0 < limits i) (h : DueAt P src σ now none ms refs)
    (hf : refs.length < fuel) :
    follow (fetchDue P src σ now limits) fuel 0 none = .ok (some refs) := by
  refine follow_eq (A := fun cursor refs => ∃ ms, DueAt P src σ now cursor ms refs)
    (fun i cursor refs hat => ?_) ⟨ms, h⟩ hf
  have ⟨ms, hat⟩ := hat
  have ⟨next, hscan, hnext⟩ := scan_eq hσ hn hk hs hat (hlim i)
  refine ⟨(limits i).toNat, next, by have := hlim i; omega, hscan, ?_⟩
  rcases hnext with hnone | ⟨c, rfl, hlt, hc⟩
  case inl => exact .inl hnone
  case inr => exact .inr ⟨c, rfl, hlt, _, hat.drop hc⟩

include hs in
theorem exists_dueAt : ∃ ms refs, DueAt P src σ now none ms refs ∧ refs.Nodup ∧
    ∀ ref, ref ∈ refs ↔ ∃ task, Due src σ now task ∧ ref = task.ref := by
  let ms := inRange σ (dueKeys src) (dueQuery P now 1 none)
  have hmem : ∀ x, x ∈ ms ↔ ∃ task, Due src σ now task ∧ x = kvIndexMember P (dueAt task) task := by
    intro x
    have hx : x ∈ ms ↔ _ ∧ ∀ c ∈ (none : Option Text), c < x := mem_inRange_due hσ
    simpa using hx
  have href : ∀ x ∈ ms, ∃ task, Due src σ now task ∧ x = kvIndexMember P (dueAt task) task ∧
      reference P src x = .ok task.ref := by
    intro x hx
    have ⟨task, hd, he⟩ := (hmem x).mp hx
    exact ⟨task, hd, he, he ▸ reference_member hσ hs hd⟩
  have ⟨refs, hrefs⟩ := Except.exists_mapM_eq_ok (f := reference P src) (l := ms) fun x hx =>
    have ⟨task, _, _, hr⟩ := href x hx
    ⟨task.ref, hr⟩
  refine ⟨ms, refs, ⟨ascending_sort _, fun x => by simpa using hmem x, hrefs, by simp⟩, ?_, ?_⟩
  · refine Except.nodup_of_mapM hrefs (ascending_sort _).nodup fun x hx y hy ref hrx hry => ?_
    have ⟨task, hd, hxt, hr⟩ := href x hx
    have ⟨task', hd', hyt, hr'⟩ := href y hy
    rw [hrx] at hr
    rw [hry] at hr'
    have he : task.ref = task'.ref := (Except.ok.inj hr).symm.trans (Except.ok.inj hr')
    simp only [Task.ref, Reference.mk.injEq] at he
    rw [hxt, hyt, hd.owned.eq hd'.owned he.right.left]
  · intro ref
    constructor
    case mp =>
      intro hr
      have ⟨x, hx, he⟩ := exists_of_mem_mapM hrefs hr
      have ⟨task, hd, _, hr⟩ := href x hx
      rw [he] at hr
      exact ⟨task, hd, Except.ok.inj hr⟩
    case mpr =>
      rintro ⟨task, hd, rfl⟩
      have ⟨ref, hr, he⟩ := Except.exists_mem_of_mem_mapM hrefs ((hmem _).mpr ⟨task, hd, rfl⟩)
      rw [reference_member hσ hs hd] at he
      cases he
      exact hr

end Scan

theorem slash_notMem_of_scan (h : fetchDue P src σ now limits i cursor = .ok (page, next)) :
    ∀ ref ∈ page, slash ∉ ref.deletionID := by
  have ⟨_, _, h⟩ := Except.bind_eq_ok.mp h
  have ⟨_, h⟩ := Except.ite_error_eq_ok.mp h
  have ⟨_, _, h⟩ := Except.bind_eq_ok.mp h
  have ⟨members, _, h⟩ := Except.bind_eq_ok.mp h
  have ⟨refs, hrefs, h⟩ := Except.bind_eq_ok.mp h
  cases h
  intro ref hr
  have ⟨x, _, hx⟩ := exists_of_mem_mapM hrefs hr
  have ⟨⟨_, id, fp⟩, hp, hx⟩ := Except.bind_eq_ok.mp hx
  cases hx
  exact slash_notMem_of_parse hp

-- The pages of a scan have exactly one reference for each due task, whatever the limits.
def ScansExactly (P : Platform) (src : KVSource) (σ : Store) (now : Time) : Prop :=
  ∀ limits : Nat → Int, (∀ i, 0 < limits i) →
    ∃ refs : List Reference, refs.Nodup ∧
      (∀ ref, ref ∈ refs ↔ ∃ task, Due src σ now task ∧ ref = task.ref) ∧
      ∃ enough, ∀ fuel ≥ enough,
        follow (fetchDue P src σ now limits) fuel 0 none = .ok (some refs)

theorem scansExactly_iff (hσ : Sound P σ) (hn : isName src.name = true) (hk : src.ownedKinds ≠ []) :
    ScansExactly P src σ now ↔ ∀ task, Due src σ now task → slash ∉ task.record.deletionID := by
  constructor
  case mp =>
    intro h task hd
    have ⟨refs, _, hmem, enough, hl⟩ := h (fun _ => 1) (by simp)
    exact follow_forall (fun _ _ _ _ => slash_notMem_of_scan) (hl enough le_rfl) task.ref
      ((hmem _).mpr ⟨task, hd, rfl⟩)
  case mpr =>
    intro hs limits hlim
    have ⟨ms, refs, hat, hnd, hmem⟩ := exists_dueAt hσ hs
    exact ⟨refs, hnd, hmem, refs.length + 1, fun fuel hf =>
      follow_due hσ hn hk hs hlim hat (by omega)⟩

end Due

section Samples

-- A single source, and a listing of everything that it has.
@[local simp]
def Registry.sample (σ : Store) : Registry where
  entries := [(⟨ascii "kv", [.workspace]⟩, σ)]
  valid := by simp; decide
  nodup := by simp

@[local simp]
def ListRequest.all : ListRequest where
  source := []
  kind := none
  status := none
  startTime := none
  endTime := none
  limit := 0
  cursor := none

theorem accepted_all : Accepted r .all where
  source := .inl rfl
  times := by simp

-- `uuid.Parse` takes any two bytes for the braces.
def Record.slashed : Record :=
  { Record.sample with deletionID := ascii "/00000000-0000-0000-0000-000000000000/" }

end Samples

end GizClaw.PendingDeletion

import NikitaFirmware.RpcStorage.Handlers

/-!
# Writing a file over RPC

What holds for every sequence of storage requests in which no command goes on after its final reply:
a write command is confirmed when the file holds what it sent, and each command gets one final reply.
-/

namespace NikitaFirmware.RpcStorage
open Foundations NikitaFirmware.Storage List Option

variable {s s' : System} {id : UInt32} {capacity : Nat} {ev : Event}

def Event.write? : Event → Option WriteRequest
  | .write request _ => some request
  | _ => none

namespace System

def written (s : System) (id : UInt32) : List WriteRequest :=
  (s.requests.filterMap Event.write?).filter (·.commandId == id)

def received (s : System) (id : UInt32) : Bytes :=
  ((s.written id).map fun request => request.data.getD []).flatten

/-- The path that a write command was begun with. -/
def target (s : System) (id : UInt32) : Path := ((s.written id).head?.bind (·.path)).getD []

def finals (id : UInt32) (replies : List Reply) : Nat :=
  replies.countP fun reply => reply.commandId == id && !reply.hasNext

def InProgress (s : System) (id : UInt32) : Prop := s.state = .writing ∧ s.currentCommandId = id

instance (s : System) (id : UInt32) : Decidable (s.InProgress id) :=
  inferInstanceAs (Decidable (s.state = .writing ∧ s.currentCommandId = id))

/-- What is promised of a request. -/
structure Exact (s : System) (ev : Event) (s' : System) : Prop where
  confirmed : ∀ request ∈ ev.write?, ∀ replies, s'.sent = s.sent ++ replies →
    (∃ reply ∈ replies, reply.commandId = request.commandId ∧ reply.status = .ok) →
      s'.fs (s'.target request.commandId) = some (s'.received request.commandId)
  untouched : ∀ request ∈ ev.write?,
    (∃ reply ∈ s.sent, reply.commandId = request.commandId ∧ reply.status ≠ .ok) → s'.fs = s.fs

/-- A command does not go on after its final reply, the id of a command that is written is used by its
write requests only, and no other command is refused for its path while it is. -/
structure Proper (s : System) (ev : Event) : Prop where
  fresh : ∀ reply ∈ s.sent, reply.hasNext = false → reply.commandId ≠ ev.commandId
  apart : ev.write? = none → ¬ s.InProgress ev.commandId
  ascii : ∀ request ∈ ev.write?, pathContainsOnlyAscii request.path = false →
    s.state = .writing → s.currentCommandId = request.commandId

instance decidableProper (s : System) (ev : Event) : Decidable (Proper s ev) :=
  decidable_of_iff ((∀ reply ∈ s.sent, reply.hasNext = false → reply.commandId ≠ ev.commandId) ∧
    (ev.write? = none → ¬ s.InProgress ev.commandId) ∧
    ∀ request ∈ ev.write?, pathContainsOnlyAscii request.path = false →
      s.state = .writing → s.currentCommandId = request.commandId)
    ⟨fun h => ⟨h.1, h.2.1, h.2.2⟩, fun h => ⟨h.fresh, h.apart, h.ascii⟩⟩

/-- What the session keeps. -/
structure Inv (s : System) : Prop where
  once : ∀ ev ∈ s.requests, finals ev.commandId s.sent = if s.InProgress ev.commandId then 0 else 1
  transfer : s.state = .writing → s.written s.currentCommandId ≠ [] ∧
    s.file = s.target s.currentCommandId ∧ s.fs s.file = some (s.received s.currentCommandId)
  errors : ∀ reply ∈ s.sent, reply.status ≠ .ok → reply.hasNext = false

/-- The replies of one request: the last one is final. -/
structure Answers (id : UInt32) (replies : List Reply) : Prop where
  finals : ∀ id', finals id' replies = if id' = id then 1 else 0
  errors : ∀ reply ∈ replies, reply.status ≠ .ok → reply.hasNext = false

theorem finals_append (id : UInt32) (replies replies' : List Reply) :
    finals id (replies ++ replies') = finals id replies + finals id replies' :=
  countP_append

variable {replies : List Reply}

theorem finals_eq_zero (h : ∀ reply ∈ replies, reply.hasNext = false → reply.commandId ≠ id) :
    finals id replies = 0 := by
  rw [finals, countP_eq_zero]
  intro reply hmem hfinal
  rw [Bool.and_eq_true, beq_iff_eq, Bool.not_eq_true'] at hfinal
  exact h reply hmem hfinal.2 hfinal.1

theorem finals_cons (id' : UInt32) (reply : Reply) (replies : List Reply) :
    finals id' (reply :: replies) =
      (if reply.commandId = id' ∧ reply.hasNext = false then 1 else 0) + finals id' replies := by
  rw [finals, countP_cons, Nat.add_comm]
  simp [finals]

theorem answers_final (status : Status) (content : Content) :
    Answers id [⟨id, status, false, content⟩] where
  finals := by
    intro id'
    rw [finals_cons]
    simp [System.finals, eq_comm]
  errors := by
    intro reply hmem _
    rw [mem_singleton.mp hmem]

theorem answers_cons (content : Content) (h : Answers id replies) :
    Answers id (⟨id, .ok, true, content⟩ :: replies) where
  finals := by
    intro id'
    rw [finals_cons, h.finals]
    simp
  errors := by
    intro reply hmem hstatus
    rcases mem_cons.mp hmem with rfl | hmem
    · exact absurd rfl hstatus
    · exact h.errors reply hmem hstatus

theorem listLoop_answers (entries : List DirEntry) (files : List DirEntry) :
    Answers id (listLoop id capacity files entries) := by
  induction entries generalizing files with
  | nil => exact answers_final .ok _
  | cons entry entries ih =>
    rw [listLoop]
    split
    · exact answers_cons _ (ih _)
    · exact ih _

theorem readLoop_answers (given : Nat → Nat) (status : Status) (fuel i : Nat) {left : Bytes}
    (h : left.length < fuel) :
    Answers id ((readLoop id given fuel i left).1 ++
      if (readLoop id given fuel i left).2 then [] else [⟨id, status, false, .empty⟩]) := by
  induction fuel generalizing i left with
  | zero => exact absurd h (Nat.not_lt_zero _)
  | succ fuel ih =>
    simp only [readLoop]
    split
    case isFalse => exact answers_final status .empty
    case isTrue hsuccess =>
      split
      case isTrue hend =>
        rw [hend]
        exact answers_final .ok _
      case isFalse hmore =>
        rw [Bool.eq_false_iff.mpr hmore]
        refine answers_cons _ (ih (i + 1) ?_)
        rw [beq_iff_eq] at hsuccess
        have hleft : 0 < left.length := by
          refine Nat.pos_of_ne_zero fun hzero => hmore ?_
          rw [eq_nil_of_length_eq_zero hzero, drop_nil]
          rfl
        rw [length_drop, hsuccess, length_take, maxDataSize]
        omega

def interrupted (s : System) : List Reply :=
  match s.state with
  | .idle => []
  | .writing => [⟨s.currentCommandId, .errorContinuousCommandInterrupted, false, .empty⟩]

theorem finals_interrupted (s : System) (id : UInt32) :
    finals id s.interrupted = if s.InProgress id then 1 else 0 := by
  obtain ⟨state, file, currentCommandId, fs, sent, requests⟩ := s
  cases state with
  | idle => exact (if_neg fun h => State.noConfusion h.1).symm
  | writing =>
    rw [interrupted, (answers_final _ _).finals]
    exact if_congr ⟨fun h => ⟨rfl, h.symm⟩, fun h => h.2.symm⟩ rfl rfl

theorem resetState_true (s : System) :
    s.resetState true = { s with state := .idle, sent := s.sent ++ s.interrupted } := by
  obtain ⟨state, file, currentCommandId, fs, sent, requests⟩ := s
  cases state with
  | idle => simp [resetState, interrupted]
  | writing => rfl

theorem resetState_false (s : System) : s.resetState false = { s with state := .idle } := by
  obtain ⟨state, file, currentCommandId, fs, sent, requests⟩ := s
  cases state with
  | idle => rfl
  | writing => rfl

theorem inv_alloc (fs : Path → Option Bytes) : Inv (alloc fs) where
  once := fun _ h => absurd h not_mem_nil
  transfer := fun h => State.noConfusion h
  errors := fun _ h => absurd h not_mem_nil

theorem Proper.finals_eq_zero (h : Proper s ev) : finals ev.commandId s.sent = 0 :=
  System.finals_eq_zero h.fresh

/-- The replies to other commands that come before those to the request. -/
def cut (s : System) (id : UInt32) : List Reply :=
  if s.InProgress id then [] else s.interrupted

theorem finals_cut_self (s : System) (id : UInt32) : finals id (s.cut id) = 0 := by
  rw [cut]
  split
  case isTrue => rfl
  case isFalse hnot => rw [finals_interrupted, if_neg hnot]

theorem Inv.finals_cut (h : s.Inv) (hmem : ev ∈ s.requests) (hne : ev.commandId ≠ id) :
    finals ev.commandId (s.sent ++ s.cut id) = 1 := by
  rw [finals_append, h.once ev hmem, cut]
  by_cases hin : s.InProgress id
  · have hother : ¬ s.InProgress ev.commandId := fun h => hne (h.2.symm.trans hin.2)
    rw [if_pos hin, if_neg hother]
    rfl
  · rw [if_neg hin, finals_interrupted]
    split <;> rfl

theorem errors_cut (s : System) (id : UInt32) :
    ∀ reply ∈ s.cut id, reply.status ≠ .ok ∧ reply.hasNext = false := by
  intro reply hmem
  rw [cut] at hmem
  split at hmem
  · exact absurd hmem not_mem_nil
  · rw [interrupted] at hmem
    cases hstate : s.state with
    | idle =>
      rw [hstate] at hmem
      exact absurd hmem not_mem_nil
    | writing =>
      rw [hstate] at hmem
      rw [mem_singleton.mp hmem]
      exact ⟨fun h => Status.noConfusion h, rfl⟩

theorem Inv.errors_append (h : s.Inv)
    (herrors : ∀ reply ∈ replies, reply.status ≠ .ok → reply.hasNext = false) :
    ∀ reply ∈ s.sent ++ s.cut id ++ replies, reply.status ≠ .ok → reply.hasNext = false := by
  intro reply hmem
  rw [mem_append, mem_append] at hmem
  rcases hmem with (hmem | hmem) | hmem
  · exact h.errors reply hmem
  · exact fun _ => (errors_cut s id reply hmem).2
  · exact herrors reply hmem

theorem Inv.answered (h : s.Inv) (hproper : Proper s ev)
    (hanswers : Answers ev.commandId replies) (hstate : s'.state = .idle)
    (hsent : s'.sent = s.sent ++ s.cut ev.commandId ++ replies)
    (hrequests : s'.requests = s.requests ++ [ev]) : s'.Inv where
  once := by
    intro ev' hmem
    have hidle : ¬ s'.InProgress ev'.commandId := fun hin =>
      State.noConfusion (hstate.symm.trans hin.1)
    rw [if_neg hidle, hsent, finals_append, hanswers.finals]
    by_cases hsame : ev'.commandId = ev.commandId
    · rw [if_pos hsame, hsame, finals_append, hproper.finals_eq_zero, finals_cut_self]
    · rw [hrequests, mem_append, mem_singleton] at hmem
      rcases hmem with hmem | rfl
      · rw [if_neg hsame, h.finals_cut hmem hsame]
      · exact absurd rfl hsame
  transfer := fun hwriting => State.noConfusion (hstate.symm.trans hwriting)
  errors := by
    rw [hsent]
    exact h.errors_append hanswers.errors

theorem readProcess_spec (s : System) (id : UInt32) (outcome : ReadOutcome) :
    ∃ replies, Answers id replies ∧ (s.readProcess id outcome).state = .idle ∧
      (s.readProcess id outcome).sent = s.sent ++ s.interrupted ++ replies := by
  rw [readProcess, resetState_true]
  cases outcome.content with
  | none => exact ⟨_, answers_final _ _, rfl, rfl⟩
  | some content =>
    refine ⟨_, readLoop_answers outcome.given (getError outcome.error) (content.length + 1) 0
      (Nat.lt_succ_self _), ?_⟩
    dsimp only
    split
    · refine ⟨rfl, ?_⟩
      simp only [append_nil]
    · refine ⟨rfl, ?_⟩
      simp only [sendEmpty, send, append_assoc]

theorem listProcess_spec (s : System) (id : UInt32) (path : Path) (filterMaxSize : Nat)
    (entries : Except FsError (List DirEntry)) :
    ∃ replies, Answers id replies ∧
      (s.listProcess capacity id path filterMaxSize entries).state = .idle ∧
      (s.listProcess capacity id path filterMaxSize entries).sent =
        s.sent ++ s.interrupted ++ replies := by
  simp only [listProcess, resetState_true]
  split
  · exact ⟨_, answers_final _ _, rfl, rfl⟩
  · cases entries with
    | error error => exact ⟨_, answers_final _ _, rfl, rfl⟩
    | ok entries => exact ⟨_, listLoop_answers _ _, rfl, rfl⟩

theorem otherProcess_spec (s : System) (id : UInt32) (status : Status) (content : Content)
    (fs : Path → Option Bytes) :
    ∃ replies, Answers id replies ∧ (s.otherProcess id status content fs).state = .idle ∧
      (s.otherProcess id status content fs).sent = s.sent ++ s.interrupted ++ replies := by
  rw [otherProcess, resetState_true]
  exact ⟨_, answers_final _ _, rfl, rfl⟩

/-- The file of a command is being written, and holds `data` so far. -/
structure Transfers (s : System) (id : UInt32) (path : Path) (data : Bytes) : Prop where
  inProgress : s.InProgress id
  file : s.file = path
  content : s.fs path = some data

/-- What a write request leaves: the transfer goes on, it is confirmed, or it has failed. -/
inductive Written (sent : List Reply) (id : UInt32) (path : Path) (data : Bytes) (s' : System) : Prop
  | progress (transfers : s'.Transfers id path data) (sent_eq : s'.sent = sent)
  | confirmed (idle : s'.state = .idle) (content : s'.fs path = some data)
      (sent_eq : s'.sent = sent ++ [⟨id, .ok, false, .empty⟩])
  | failed (idle : s'.state = .idle) (status : Status) (error : status ≠ .ok)
      (sent_eq : s'.sent = sent ++ [⟨id, status, false, .empty⟩])

theorem endWrite_error (hin : s.InProgress id) (path : Path) (data : Bytes) (hasNext : Bool)
    (error : FsError) : Written s.sent id path data (s.endWrite hasNext false error) := by
  rw [endWrite, if_neg Bool.false_ne_true, resetState_false]
  refine .failed rfl (if getError error = .ok then .errorStorageInternal else getError error) ?_ ?_
  · split
    case isTrue => exact fun h => Status.noConfusion h
    case isFalse hne => exact hne
  · rw [sendEmpty, send, hin.2]

theorem Transfers.endWrite {path : Path} {data : Bytes} (h : s.Transfers id path data)
    (hasNext : Bool) (error : FsError) :
    Written s.sent id path data (s.endWrite hasNext true error) := by
  rw [System.endWrite, if_pos rfl]
  cases hasNext with
  | true => exact .progress h rfl
  | false =>
    rw [if_neg Bool.false_ne_true, resetState_false]
    refine .confirmed rfl h.content ?_
    rw [sendEmpty, send, h.inProgress.2]

theorem Transfers.writeChunk {path : Path} {data : Bytes} (h : s.Transfers id path data)
    (chunk : Bytes) (stored : Nat) (hasNext : Bool) (error : FsError) :
    Written s.sent id path (data ++ chunk)
      ((s.writeData chunk stored).1.endWrite hasNext (s.writeData chunk stored).2 error) := by
  rw [writeData]
  split
  case isTrue hempty =>
    rw [hempty, append_nil]
    exact h.endWrite hasNext error
  case isFalse =>
    dsimp only
    by_cases hall : (chunk.take stored).length = chunk.length
    · have htake : chunk.take stored = chunk := (List.take_prefix stored chunk).eq_of_length hall
      have hwritten : Transfers { s with fs := fun p =>
          if p = s.file then (s.fs p).map (· ++ chunk.take stored) else s.fs p }
          id path (data ++ chunk) := by
        refine ⟨h.inProgress, h.file, ?_⟩
        dsimp only
        rw [if_pos h.file.symm, h.content, htake]
        rfl
      rw [beq_iff_eq.mpr hall]
      exact hwritten.endWrite hasNext error
    · rw [beq_eq_false_iff_ne.mpr hall]
      have hin : InProgress { s with fs := fun p =>
          if p = s.file then (s.fs p).map (· ++ chunk.take stored) else s.fs p } id := h.inProgress
      exact endWrite_error hin path _ hasNext error

theorem beginWrite_written (hidle : s.state = .idle) (request : WriteRequest) (path : Path)
    (outcome : WriteOutcome) :
    Written s.sent request.commandId path (request.data.getD [])
      (match s.beginWrite request path outcome.opened with
        | (s, false) => s.endWrite request.hasNext false outcome.error
        | (s, true) =>
          match s.writeData (request.data.getD []) outcome.written with
          | (s, success) => s.endWrite request.hasNext success outcome.error) := by
  rw [beginWrite, hidle]
  cases outcome.opened with
  | false =>
    have hin : InProgress { s with
        file := path, currentCommandId := request.commandId, state := .writing }
        request.commandId := ⟨rfl, rfl⟩
    exact endWrite_error hin path _ request.hasNext outcome.error
  | true =>
    have hbegun : Transfers { s with
        file := path, currentCommandId := request.commandId, state := .writing,
        fs := fun p => if p = path then some [] else s.fs p } request.commandId path [] :=
      ⟨⟨rfl, rfl⟩, rfl, if_pos rfl⟩
    exact hbegun.writeChunk _ outcome.written request.hasNext outcome.error

theorem writeProcess_written (request : WriteRequest) (outcome : WriteOutcome)
    (hascii : pathContainsOnlyAscii request.path = true) {path : Path} {data : Bytes}
    (hcontinue : s.InProgress request.commandId → s.Transfers request.commandId path data)
    (hbegin : ¬ s.InProgress request.commandId → path = request.path.getD [] ∧ data = []) :
    Written (s.sent ++ s.cut request.commandId)
      request.commandId path (data ++ request.data.getD []) (s.writeProcess request outcome) := by
  rw [writeProcess, if_pos hascii]
  by_cases hin : s.InProgress request.commandId
  · have hsame : ¬ (request.commandId ≠ s.currentCommandId ∧ s.state = .writing) :=
      fun h => h.1 hin.2.symm
    rw [cut, if_pos hin, append_nil, if_neg hsame]
    dsimp only
    rw [beginWrite, hin.1]
    exact (hcontinue hin).writeChunk _ outcome.written request.hasNext outcome.error
  · obtain ⟨rfl, rfl⟩ := hbegin hin
    rw [cut, if_neg hin, nil_append]
    cases hstate : s.state with
    | idle =>
      rw [if_neg (fun h => State.noConfusion h.2)]
      have hnone : s.interrupted = [] := by rw [interrupted, hstate]
      rw [hnone, append_nil]
      exact beginWrite_written hstate request _ outcome
    | writing =>
      have hother : request.commandId ≠ s.currentCommandId := fun h => hin ⟨hstate, h.symm⟩
      rw [if_pos ⟨hother, rfl⟩, resetState_true]
      exact beginWrite_written (s := { s with state := .idle, sent := s.sent ++ s.interrupted })
        rfl request _ outcome

theorem written_eq_nil (h : ∀ ev ∈ s.requests, ev.commandId ≠ id) : s.written id = [] := by
  rw [written, filter_eq_nil_iff]
  intro request hmem heq
  obtain ⟨ev, hev, hrequest⟩ := mem_filterMap.mp hmem
  cases ev with
  | write request' outcome =>
    obtain rfl := some.inj hrequest
    exact h _ hev (beq_iff_eq.mp heq)
  | read => exact absurd hrequest.symm (some_ne_none _)
  | list => exact absurd hrequest.symm (some_ne_none _)
  | other => exact absurd hrequest.symm (some_ne_none _)

theorem Inv.new_of_not_inProgress (h : s.Inv) (hproper : Proper s ev)
    (hnot : ¬ s.InProgress ev.commandId) : ∀ ev' ∈ s.requests, ev'.commandId ≠ ev.commandId := by
  intro ev' hmem heq
  have honce := h.once ev' hmem
  rw [heq, hproper.finals_eq_zero, if_neg hnot] at honce
  cases honce

theorem Inv.transfers (h : s.Inv) (hin : s.InProgress id) :
    s.Transfers id (s.target id) (s.received id) := by
  obtain ⟨-, hfile, hcontent⟩ := h.transfer hin.1
  rw [hin.2] at hfile hcontent
  exact ⟨hin, hfile, hfile ▸ hcontent⟩

def after (s s' : System) (ev : Event) : System := { s' with requests := s.requests ++ [ev] }

theorem written_after (s s' : System) (request : WriteRequest) (outcome : WriteOutcome) :
    (s.after s' (.write request outcome)).written request.commandId =
      s.written request.commandId ++ [request] := by
  simp [written, after, Event.write?]

theorem received_after (s s' : System) (request : WriteRequest) (outcome : WriteOutcome) :
    (s.after s' (.write request outcome)).received request.commandId =
      s.received request.commandId ++ request.data.getD [] := by
  rw [received, written_after]
  simp [received]

theorem target_after_of_begun (s s' : System) (request : WriteRequest) (outcome : WriteOutcome)
    (h : s.written request.commandId ≠ []) :
    (s.after s' (.write request outcome)).target request.commandId = s.target request.commandId := by
  rw [target, written_after, List.head?_append_of_ne_nil _ h, target]

theorem target_after_of_new (s s' : System) (request : WriteRequest) (outcome : WriteOutcome)
    (h : s.written request.commandId = []) :
    (s.after s' (.write request outcome)).target request.commandId = request.path.getD [] := by
  rw [target, written_after, h]
  rfl

variable {request : WriteRequest}

variable {outcome : WriteOutcome}

theorem Inv.writeProcess (h : s.Inv) (hproper : Proper s (.write request outcome))
    (hascii : pathContainsOnlyAscii request.path = true) :
    Written (s.sent ++ s.cut request.commandId) request.commandId
      ((s.after (s.writeProcess request outcome) (.write request outcome)).target request.commandId)
      ((s.after (s.writeProcess request outcome) (.write request outcome)).received
        request.commandId) (s.writeProcess request outcome) := by
  rw [received_after]
  refine writeProcess_written request outcome hascii (fun hin => ?_) fun hnot => ?_
  · rw [target_after_of_begun _ _ _ _ (hin.2 ▸ (h.transfer hin.1).1)]
    exact h.transfers hin
  · have hnone : s.written request.commandId = [] :=
      written_eq_nil (h.new_of_not_inProgress hproper hnot)
    refine ⟨target_after_of_new _ _ _ _ hnone, ?_⟩
    rw [received, hnone]
    rfl

theorem Inv.progress (h : s.Inv) (hproper : Proper s (.write request outcome))
    (htransfers : s'.Transfers request.commandId
      ((s.after s' (.write request outcome)).target request.commandId)
      ((s.after s' (.write request outcome)).received request.commandId))
    (hsent : s'.sent = s.sent ++ s.cut request.commandId) :
    (s.after s' (.write request outcome)).Inv where
  once := by
    intro ev' hmem
    change finals ev'.commandId s'.sent = if s'.InProgress ev'.commandId then 0 else 1
    rw [hsent]
    by_cases hsame : ev'.commandId = request.commandId
    · have hzero := hproper.finals_eq_zero
      rw [hsame, if_pos htransfers.inProgress, finals_append, finals_cut_self]
      exact hzero
    · have hother : ¬ s'.InProgress ev'.commandId := fun hin =>
        hsame (hin.2.symm.trans htransfers.inProgress.2)
      rw [if_neg hother]
      rcases mem_append.mp hmem with hmem | hmem
      · exact h.finals_cut hmem hsame
      · rw [mem_singleton.mp hmem] at hsame
        exact absurd rfl hsame
  transfer := by
    intro _
    have hcurrent : (s.after s' (.write request outcome)).currentCommandId = request.commandId :=
      htransfers.inProgress.2
    rw [hcurrent]
    refine ⟨?_, htransfers.file, ?_⟩
    · rw [written_after]
      exact append_ne_nil_of_right_ne_nil _ (cons_ne_nil _ _)
    · exact htransfers.file ▸ htransfers.content
  errors := by
    change ∀ reply ∈ s'.sent, _
    rw [hsent, ← append_nil (s.sent ++ _)]
    exact h.errors_append fun reply hmem => absurd hmem not_mem_nil

theorem Inv.not_failed (h : s.Inv) (hproper : Proper s ev) :
    ¬ ∃ reply ∈ s.sent, reply.commandId = ev.commandId ∧ reply.status ≠ .ok := by
  rintro ⟨reply, hmem, hid, hstatus⟩
  exact hproper.fresh reply hmem (h.errors reply hmem hstatus) hid

theorem Inv.exact_of_errors (h : s.Inv) (hproper : Proper s (.write request outcome))
    (hsent : s'.sent = s.sent ++ replies) (herrors : ∀ reply ∈ replies, reply.status ≠ .ok) :
    Exact s (.write request outcome) s' where
  confirmed := by
    rintro request' - replies' hsent' ⟨reply, hmem, -, hok⟩
    rw [append_cancel_left (hsent.symm.trans hsent')] at herrors
    exact absurd hok (herrors reply hmem)
  untouched := by
    rintro request' hrequest hfailed
    obtain rfl := some.inj hrequest
    exact absurd hfailed (h.not_failed hproper)

theorem Inv.write (h : s.Inv) (hproper : Proper s (.write request outcome)) :
    (s.after (s.writeProcess request outcome) (.write request outcome)).Inv ∧
      Exact s (.write request outcome)
        (s.after (s.writeProcess request outcome) (.write request outcome)) := by
  have hcut : ∀ reply ∈ s.cut request.commandId, reply.status ≠ .ok :=
    fun reply hmem => (errors_cut s _ reply hmem).1
  cases hascii : pathContainsOnlyAscii request.path with
  | false =>
    have hnone : s.cut request.commandId = [] := by
      rw [cut]
      split
      case isTrue => rfl
      case isFalse hnot =>
        rw [interrupted]
        cases hstate : s.state with
        | idle => rfl
        | writing => exact absurd ⟨hstate, hproper.ascii _ rfl hascii hstate⟩ hnot
    have hprocess : s.writeProcess request outcome = { s with
          currentCommandId := request.commandId
          state := .idle
          sent := s.sent ++ [⟨request.commandId, .errorStorageInvalidName, false, .empty⟩] } := by
      rw [System.writeProcess, hascii, if_neg Bool.false_ne_true, resetState_false]
      rfl
    rw [hprocess]
    refine ⟨h.answered hproper (answers_final .errorStorageInvalidName .empty) rfl ?_ rfl,
      h.exact_of_errors hproper rfl ?_⟩
    · change _ = s.sent ++ s.cut request.commandId ++ _
      rw [hnone, append_nil]
      rfl
    · intro reply hmem
      rw [mem_singleton.mp hmem]
      exact fun h => Status.noConfusion h
  | true =>
    cases h.writeProcess hproper hascii with
    | progress transfers sent_eq =>
      exact ⟨h.progress hproper transfers sent_eq, h.exact_of_errors hproper sent_eq hcut⟩
    | confirmed idle content sent_eq =>
      refine ⟨h.answered hproper (answers_final _ _) idle sent_eq rfl, ?_, ?_⟩
      · intro request' hrequest _ _ _
        obtain rfl := some.inj hrequest
        exact content
      · intro request' hrequest hfailed
        obtain rfl := some.inj hrequest
        exact absurd hfailed (h.not_failed hproper)
    | failed idle status error sent_eq =>
      refine ⟨h.answered hproper (answers_final _ _) idle sent_eq rfl,
        h.exact_of_errors hproper (sent_eq.trans (append_assoc _ _ _)) ?_⟩
      intro reply hmem
      rcases mem_append.mp hmem with hmem | hmem
      · exact hcut reply hmem
      · rw [mem_singleton.mp hmem]
        exact error

theorem Inv.other (h : s.Inv) (hproper : Proper s ev) (hother : ev.write? = none)
    (hanswers : ∃ replies, Answers ev.commandId replies ∧ s'.state = .idle ∧
      s'.sent = s.sent ++ s.interrupted ++ replies) :
    (s.after s' ev).Inv ∧ Exact s ev (s.after s' ev) := by
  obtain ⟨replies, hreplies, hidle, hsent⟩ := hanswers
  have hcut : s.cut ev.commandId = s.interrupted := if_neg (hproper.apart hother)
  rw [← hcut] at hsent
  exact ⟨h.answered hproper hreplies hidle hsent rfl,
    fun _ hrequest => absurd (hother.symm.trans hrequest).symm (some_ne_none _),
    fun _ hrequest => absurd (hother.symm.trans hrequest).symm (some_ne_none _)⟩

theorem Inv.step (h : s.Inv) (hproper : Proper s ev) : (s.after (s.handle capacity ev) ev).Inv ∧
      Exact s ev (s.after (s.handle capacity ev) ev) := by
  cases ev with
  | write request outcome => exact h.write hproper
  | read commandId outcome =>
    exact h.other hproper rfl (readProcess_spec s _ outcome)
  | list commandId path filterMaxSize entries =>
    exact h.other hproper rfl (listProcess_spec s _ path _ entries)
  | other commandId status content fs =>
    exact h.other hproper rfl (otherProcess_spec s _ status content fs)

end System

/-- In every sequence of proper requests a write command is confirmed only when its file holds what
was received, each command but the current one has had one final reply, and what comes after a
failure changes no file. -/
theorem transfer_exact {fs : Path → Option Bytes} {evs : List Event} {s : System}
    (hproper : (machine capacity).Meets System.Proper (.alloc fs) evs)
    (hrun : (machine capacity).run (.alloc fs) evs = some s) :
    (∀ ev ∈ evs, System.finals ev.commandId s.sent = if s.InProgress ev.commandId then 0 else 1) ∧
    (machine capacity).Meets (fun s ev => ∃ s', (machine capacity).step s ev = some s' ∧
      s.Exact ev s') (.alloc fs) evs := by
  have hstep : ∀ s ev s', s.Inv → s.Proper ev → (machine capacity).step s ev = some s' →
      s'.Inv := by
    intro s ev s' h hok hs
    exact some.inj hs ▸ (h.step hok).1
  have hinv : s.Inv :=
    (machine capacity).run_invariant_of_meets hstep (System.inv_alloc fs) hproper hrun
  have hrequests : s.requests = (System.alloc fs).requests ++ evs.filterMap some :=
    (machine capacity).run_accumulates (f := fun s => s.requests)
      (fun s ev s' hs => some.inj hs ▸ rfl) hrun
  rw [filterMap_some, System.alloc, nil_append] at hrequests
  refine ⟨hrequests ▸ hinv.once, ?_⟩
  exact (machine capacity).meets_of_invariant hstep
    (fun s ev h hok => ⟨_, rfl, (h.step hok).2⟩) (System.inv_alloc fs) hproper

def chunk (commandId : UInt32) (hasNext : Bool) (path : String) (data : Bytes) : Event :=
  .write ⟨commandId, hasNext, some path.toList, some data⟩ ⟨true, data.length, .ok⟩

/-- One file is written, another one is interrupted, and the first one is read. -/
def sampleEvents : List Event :=
  [chunk 1 true "/ext/a" [1, 2], chunk 1 false "/ext/a" [3], chunk 2 true "/ext/b" [4],
    .list 3 "/".toList 0 (.ok []), .read 4 ⟨some [1, 2, 3], fun _ => maxDataSize, .ok⟩]

theorem transfer_exact_sample : ∃ s, (machine 8).run (.alloc fun _ => none) sampleEvents = some s ∧
      (∀ ev ∈ sampleEvents,
        System.finals ev.commandId s.sent = if s.InProgress ev.commandId then 0 else 1) ∧
      (machine 8).Meets (fun s ev => ∃ s', (machine 8).step s ev = some s' ∧ s.Exact ev s')
        (.alloc fun _ => none) sampleEvents := by
  have hproper : (machine 8).Meets System.Proper (.alloc fun _ => none) sampleEvents := by
    decide
  have hsome : ((machine 8).run (.alloc fun _ => none) sampleEvents).isSome = true := rfl
  obtain ⟨s, hrun⟩ := isSome_iff_exists.mp hsome
  exact ⟨s, hrun, transfer_exact hproper hrun⟩

/-- The second chunk of a command is not stored. -/
def failedEvents : List Event :=
  [chunk 1 true "/ext/a" [1], .write ⟨1, true, some "/ext/a".toList, some [2]⟩ ⟨true, 0, .internal⟩]

/-- Another command is refused for its path. -/
def refusedEvents : List Event := [chunk 1 true "/ext/a" [1], chunk 2 false "/ext/ä" [2]]

theorem not_transfer_exact : (∃ s s', (machine 8).run (.alloc fun _ => none) failedEvents = some s ∧
      (machine 8).step s (chunk 1 false "/ext/a" [3]) = some s' ∧
      ¬ s.Exact (chunk 1 false "/ext/a" [3]) s') ∧
    ∃ s, (machine 8).run (.alloc fun _ => none) refusedEvents = some s ∧
      ¬ ∀ ev ∈ refusedEvents,
        System.finals ev.commandId s.sent = if s.InProgress ev.commandId then 0 else 1 := by
  constructor
  · have hfacts : ((machine 8).run (.alloc fun _ => none) failedEvents).map (fun s =>
        (s.sent, s.fs "/ext/a".toList,
          ((machine 8).step s (chunk 1 false "/ext/a" [3])).map fun s' => s'.fs "/ext/a".toList)) =
        some ([⟨1, .errorStorageInternal, false, .empty⟩], some [1], some (some [3])) := by
      decide
    obtain ⟨s, hrun, hs⟩ := map_eq_some_iff.mp hfacts
    obtain ⟨hsent, hs⟩ := Prod.mk.inj hs
    obtain ⟨hbefore, hs⟩ := Prod.mk.inj hs
    obtain ⟨s', hstep, hafter⟩ := map_eq_some_iff.mp hs
    refine ⟨s, s', hrun, hstep, fun h => ?_⟩
    have hsame := h.untouched _ rfl
      ⟨⟨1, .errorStorageInternal, false, .empty⟩, hsent ▸ mem_singleton_self _, rfl,
        fun h => Status.noConfusion h⟩
    rw [hsame, hbefore] at hafter
    cases hafter
  · have hfacts : ((machine 8).run (.alloc fun _ => none) refusedEvents).map (fun s =>
        (s.state, System.finals 1 s.sent)) = some (.idle, 0) := by decide
    obtain ⟨s, hrun, hs⟩ := map_eq_some_iff.mp hfacts
    obtain ⟨hidle, hnone⟩ := Prod.mk.inj hs
    refine ⟨s, hrun, fun h => ?_⟩
    have hone := h (chunk 1 true "/ext/a" [1]) mem_cons_self
    have hnot : ¬ s.InProgress 1 := fun hin => State.noConfusion (hidle.symm.trans hin.1)
    change System.finals 1 s.sent = if s.InProgress 1 then 0 else 1 at hone
    rw [hnone, if_neg hnot] at hone
    cases hone

end NikitaFirmware.RpcStorage

import SenderQueue.Coalescing

/-! # What a run hands out

`enqueue` appends items and `dequeue` hands the front one to its caller. This module follows
both along a run of whole calls: the transcript of a run is the list of items accepted and
the list of items delivered. Four guarantees the session's writer relies on hold after every
run from the empty queue, whatever the producers enqueue and wherever exceptions are thrown:

* the items delivered, followed by the items still queued, are a subsequence of the items
  accepted: nothing is delivered twice, out of order, or without having been accepted;
* an accepted message with no dedup key is never dropped;
* for every key, the newest accepted message with that key is delivered or still queued;
* every queued message with a key is the newest accepted one with that key, so the front of
  the deque is never a superseded value.

Once the termination flag is up, a run hands out nothing and leaves the session as it was.

The first three rest on `Transcript.record_cases`: a call either moves front items of the deque
to the delivered items, or appends an item after erasing the first queued message its plan's
predicate accepts, and `plan_pred_supersedes` says that message is one the item supersedes.
They hold on any deque. The fourth needs what reachable deques keep (`Fresh`): the erase must
catch every message the item supersedes, which takes well-formed queued messages, for the
predicates to see them, and at most one of them per key.
-/

namespace SenderQueue

/-- The items a run has handed out: those `enqueue` appended and those `dequeue` returned
through its `item` argument, each in order. -/
structure Transcript where
  accepted : List Message
  delivered : List Message

def Transcript.empty : Transcript := ⟨[], []⟩

variable {ε TileDesc : Type} [DecidableEq TileDesc] (c : Collaborators ε TileDesc)

/-- What one call adds to the transcript. -/
def Transcript.record (s : Session) (t : Transcript) : Call → Transcript
  | .enqueue item =>
    match ((itemToPush c s.terminationFlag item).run.run s.queue).1 with
    | .ok (some pushed) => { t with accepted := t.accepted ++ [pushed] }
    | _ => t
  | .dequeue =>
    match ((dequeue s.terminationFlag).run s.queue).1 with
    | some item => { t with delivered := t.delivered ++ [item] }
    | none => t
  | .setTerminationFlag => t

/-- A run of whole calls from `s`, with its transcript. -/
def Session.runRecorded (s : Session) (t : Transcript) (calls : List Call) : Session × Transcript :=
  calls.foldl (fun run call => (run.1.step c call, run.2.record c run.1 call)) (s, t)

variable {c}

@[simp] theorem Session.runRecorded_nil (s : Session) (t : Transcript) :
    s.runRecorded c t [] = (s, t) := rfl

theorem Session.runRecorded_cons (s : Session) (t : Transcript) (call : Call) (calls : List Call) :
    s.runRecorded c t (call :: calls) = (s.step c call).runRecorded c (t.record c s call) calls := rfl

theorem Session.runRecorded_append (s : Session) (t : Transcript) (calls calls' : List Call) :
    s.runRecorded c t (calls ++ calls') =
      (s.runRecorded c t calls).1.runRecorded c (s.runRecorded c t calls).2 calls' := by
  simp only [Session.runRecorded, List.foldl_append]

/-- The states a recorded run passes through are those of `Session.run`, over which the results
on reachable deques are stated. -/
theorem Session.runRecorded_fst (s : Session) (t : Transcript) (calls : List Call) :
    (s.runRecorded c t calls).1 = s.run c calls := by
  induction calls generalizing s t with
  | nil => rfl
  | cons call calls ih => exact ih (s.step c call) (t.record c s call)

/-- With the flag up a call hands out nothing. -/
theorem Transcript.record_of_terminated {s : Session} (raised : s.terminationFlag = true)
    (t : Transcript) (call : Call) : t.record c s call = t := by
  obtain ⟨flag, q⟩ := s
  subst raised
  cases call <;> rfl

variable (c) in
/-- After the termination flag is raised no sequence of calls changes the session or hands
anything out: `enqueue` neither coalesces, appends nor accepts, and `dequeue` neither removes
nor returns an item. -/
theorem run_after_termination (s : Session) (raised : s.terminationFlag = true) (t : Transcript)
    (calls : List Call) : s.runRecorded c t calls = (s, t) := by
  induction calls with
  | nil => rfl
  | cons call calls ih =>
    rw [Session.runRecorded_cons, Session.step_of_terminated raised,
      Transcript.record_of_terminated raised]
    exact ih

theorem run_after_termination_example :
    Session.runRecorded sampleCollaborators ⟨true, [⟨"tile:", "tile: part=0", "", [], true, "", 0⟩]⟩
      Transcript.empty
      [.dequeue, .enqueue ⟨"setpart:", "setpart: part=1", "", [], false, "", 0⟩, .dequeue] =
      (⟨true, [⟨"tile:", "tile: part=0", "", [], true, "", 0⟩]⟩, Transcript.empty) :=
  run_after_termination sampleCollaborators _ rfl _ _

theorem Transcript.record_dequeue (q : List Message) (t : Transcript) :
    t.record c ⟨false, q⟩ .dequeue = { t with delivered := t.delivered ++ q.head?.toList } := by
  cases q <;> simp [Transcript.record, dequeue_run]

theorem Session.step_dequeue (q : List Message) : Session.step c ⟨false, q⟩ .dequeue = ⟨false, q.tail⟩ := by
  cases q <;> rfl

/-- What holds of a state and its transcript and is kept by every call holds after every run. -/
theorem Session.runRecorded_induction (P : Session → Transcript → Prop)
    (step : ∀ s t call, P s t → P (s.step c call) (t.record c s call)) :
    ∀ (calls : List Call) (s : Session) (t : Transcript), P s t →
      P (s.runRecorded c t calls).1 (s.runRecorded c t calls).2
  | [], _, _, holds => holds
  | call :: calls, s, t, holds => Session.runRecorded_induction P step calls _ _ (step s t call holds)

/-! ## One call -/

/-- The `tile:` predicate accepts only a queued tile whose descriptor parses to the new one. -/
theorem tileMatches_eq_true {newTile : TileDesc} {newTilePosHash : UInt32} {cur : Message}
    (accepts : tileMatches c newTile newTilePosHash cur = .ok true) :
    cur.firstToken = "tile:" ∧ c.parseTile cur.firstLine = .ok newTile := by
  unfold tileMatches at accepts
  by_cases token : cur.firstToken = "tile:"
  · by_cases gate : newTilePosHash = cur.hash
    · rcases parse : c.parseTile cur.firstLine with e | curTile <;>
        simp [token, gate, parse] at accepts
      exact ⟨token, by rw [accepts]⟩
    · simp [token, gate] at accepts
  · simp [token] at accepts

omit [DecidableEq TileDesc] in
/-- The `invalidateviewcursor:` predicate accepts only a queued message with the command whose
payload names the view. -/
theorem viewCursorMatches_eq_true {command viewId : String} {cur : Message}
    (accepts : viewCursorMatches c command viewId cur = .ok true) :
    cur.firstToken = command ∧ c.viewId cur.jsonString = .ok viewId := by
  unfold viewCursorMatches at accepts
  by_cases token : cur.firstToken = command
  · rcases parse : c.viewId cur.jsonString with e | curViewId <;> simp [token, parse] at accepts
    exact ⟨token, by rw [accepts]⟩
  · simp [token] at accepts

/-- A plan's predicate accepts only queued messages the handed-back item supersedes, on any
deque, well formed or not. -/
theorem plan_pred_supersedes {item pushed cur : Message} {pred : Message → Except ε Bool}
    (plan : dedupPlan c item = .ok (pushed, pred)) (accepts : pred cur = .ok true) :
    supersedes c pushed cur = true := by
  rcases dedupPlan_cases plan with
    ⟨tile, newTile, parse, rfl, rfl⟩ | ⟨cursor, rfl, rfl⟩ | ⟨progress, tagged, rfl, rfl⟩ |
      ⟨view, viewId, parse, rfl, rfl⟩ | ⟨-, -, -, -, -, rfl, rfl⟩
  · have key : dedupKey c (item.setHash (c.equalityHash newTile)) = some (.tile newTile) :=
      dedupKey_eq_tile.mpr ⟨by simpa using tile, by simp [parse]⟩
    obtain ⟨token, curParse⟩ := tileMatches_eq_true accepts
    simp [supersedes_of_key key, dedupKey_eq_tile, token, curParse]
  · simp only [Message.firstTokenMatches_eq, except_pure, Except.ok.injEq, beq_iff_eq] at accepts
    rcases cursor with cursor | cursor
    · simp [supersedes_of_key (dedupKey_eq_cursor.mpr cursor), dedupKey_eq_cursor, accepts, cursor]
    · simp [supersedes_of_key (dedupKey_eq_setPart.mpr cursor), dedupKey_eq_setPart, accepts, cursor]
  · simp only [Message.firstTokenMatches_eq, except_pure, Except.ok.injEq, Bool.and_eq_true,
      beq_iff_eq] at accepts
    simp [supersedes_of_key (dedupKey_eq_progressSetValue.mpr ⟨progress, tagged⟩),
      dedupKey_eq_progressSetValue, accepts]
  · have key : dedupKey c pushed = some (.view viewId) := dedupKey_eq_view.mpr ⟨view, by simp [parse]⟩
    obtain ⟨token, curParse⟩ := viewCursorMatches_eq_true accepts
    simp [supersedes_of_key key, dedupKey_eq_view, token, curParse]
  · cases accepts

theorem supersedes_eq_true {newer older : Message} :
    supersedes c newer older = true ↔
      (dedupKey c newer).isSome ∧ dedupKey c older = dedupKey c newer := by
  simp [supersedes]

theorem eraseAt_sublist (q : List Message) (pos : Option Nat) : (eraseAt q pos).Sublist q := by
  cases pos with
  | none => exact List.Sublist.refl q
  | some pos => exact List.eraseIdx_sublist q pos

/-- The message `find_if` erases is one the predicate accepts, so a filter that rejects every
such message does not see the erase. -/
theorem filter_eraseAt_of_findIf {pred : Message → Except ε Bool} {f : Message → Bool}
    (rejects : ∀ cur, pred cur = .ok true → f cur = false) :
    ∀ {q : List Message} {pos : Option Nat}, findIf pred q = .ok pos →
      (eraseAt q pos).filter f = q.filter f
  | [], _, found => by
    cases found
    rfl
  | cur :: rest, pos, found => by
    rcases accepts : pred cur with e | _ | _ <;>
      simp only [findIf, accepts, except_error_bind, except_ok_bind, reduceCtorEq] at found
    · rcases restFound : findIf pred rest with e | restPos <;>
        simp only [restFound, Bool.false_eq_true, if_false, except_error_bind, except_ok_bind,
          except_pure, reduceCtorEq, Except.ok.injEq] at found
      subst found
      rw [eraseAt_cons_succ, List.filter_cons, List.filter_cons, filter_eraseAt_of_findIf rejects restFound]
    · simp only [if_true, except_pure, Except.ok.injEq] at found
      subst found
      simp [eraseAt, List.filter_cons, rejects cur accepts]

/-- Everything a call can do to the transcript and the deque: move some front items of the
deque to the delivered items, accepting nothing; or, with its plan and the position its
predicate found, erase that position and append the plan's item, which is accepted. -/
theorem Transcript.record_cases (s : Session) (t : Transcript) (call : Call) :
    (∃ popped, (t.record c s call).delivered = t.delivered ++ popped ∧
      s.queue = popped ++ (s.step c call).queue ∧ (t.record c s call).accepted = t.accepted) ∨
    ∃ item pushed pred pos, dedupPlan c item = .ok (pushed, pred) ∧
      findIf pred s.queue = .ok pos ∧
      (t.record c s call).delivered = t.delivered ∧
      (t.record c s call).accepted = t.accepted ++ [pushed] ∧
      (s.step c call).queue = eraseAt s.queue pos ++ [pushed] := by
  obtain ⟨flag, q⟩ := s
  cases flag
  · cases call with
    | enqueue item =>
      rcases plan : dedupPlan c item with e | ⟨pushed, pred⟩
      · left
        refine ⟨[], ?_, ?_, ?_⟩ <;> simp [Transcript.record, Session.step, enqueue_run, itemToPush_run, plan]
      · rcases found : findIf pred q with e | pos
        · left
          refine ⟨[], ?_, ?_, ?_⟩ <;>
            simp [Transcript.record, Session.step, enqueue_run, itemToPush_run, plan, found]
        · right
          refine ⟨item, pushed, pred, pos, plan, found, ?_, ?_, ?_⟩ <;>
            simp [Transcript.record, Session.step, enqueue_run, itemToPush_run, plan, found]
    | dequeue =>
      refine .inl ⟨q.head?.toList, by rw [Transcript.record_dequeue], ?_, by rw [Transcript.record_dequeue]⟩
      rw [Session.step_dequeue]
      cases q <;> rfl
    | setTerminationFlag => exact .inl ⟨[], (List.append_nil _).symm, rfl, rfl⟩
  · refine .inl ⟨[], ?_, ?_, ?_⟩
    · rw [Transcript.record_of_terminated (s := ⟨true, q⟩) rfl, List.append_nil]
    · rw [Session.step_of_terminated (s := ⟨true, q⟩) rfl]
      rfl
    · rw [Transcript.record_of_terminated (s := ⟨true, q⟩) rfl]

/-! ## The three guarantees over runs of whole calls -/

/-- The delivered items followed by the queued ones are a subsequence of the accepted ones. -/
def DeliveredInOrder (s : Session) (t : Transcript) : Prop :=
  (t.delivered ++ s.queue).Sublist t.accepted

variable (c) in
/-- The accepted messages without a dedup key are all delivered or queued, in order. -/
def KeylessKept (s : Session) (t : Transcript) : Prop :=
  (t.delivered ++ s.queue).filter (fun m => (dedupKey c m).isNone) =
    t.accepted.filter (fun m => (dedupKey c m).isNone)

variable (c) in
/-- For every key, the last message with that key among the delivered and queued ones is the
last accepted one. -/
def NewestKept (s : Session) (t : Transcript) : Prop :=
  ∀ key, ((t.delivered ++ s.queue).filter (fun m => dedupKey c m == some key)).getLast? =
    (t.accepted.filter (fun m => dedupKey c m == some key)).getLast?

theorem DeliveredInOrder.step {s : Session} {t : Transcript} (inv : DeliveredInOrder s t)
    (call : Call) : DeliveredInOrder (s.step c call) (t.record c s call) := by
  rcases Transcript.record_cases (c := c) s t call with
    ⟨popped, delivered, queue, accepted⟩ | ⟨item, pushed, pred, pos, -, -, delivered, accepted, queue⟩
  · rw [DeliveredInOrder, delivered, accepted, List.append_assoc, ← queue]
    exact inv
  · rw [DeliveredInOrder, delivered, accepted, queue, ← List.append_assoc]
    exact (((eraseAt_sublist s.queue pos).append_left t.delivered).trans inv).append_right [pushed]

theorem KeylessKept.step {s : Session} {t : Transcript} (inv : KeylessKept c s t) (call : Call) :
    KeylessKept c (s.step c call) (t.record c s call) := by
  rcases Transcript.record_cases (c := c) s t call with
    ⟨popped, delivered, queue, accepted⟩ | ⟨item, pushed, pred, pos, plan, found, delivered, accepted, queue⟩
  · rw [KeylessKept, delivered, accepted, List.append_assoc, ← queue]
    exact inv
  · have erased := filter_eraseAt_of_findIf (f := fun m => (dedupKey c m).isNone)
      (fun cur accepts => by
        obtain ⟨keyed, same⟩ := supersedes_eq_true.mp (plan_pred_supersedes plan accepts)
        simpa [same, Option.isNone_iff_eq_none, ← Option.ne_none_iff_isSome] using keyed) found
    rw [KeylessKept, delivered, accepted, queue, ← List.append_assoc, List.filter_append,
      List.filter_append, List.filter_append, erased, ← List.filter_append, inv]

theorem NewestKept.step {s : Session} {t : Transcript} (inv : NewestKept c s t) (call : Call) :
    NewestKept c (s.step c call) (t.record c s call) := by
  intro key
  rcases Transcript.record_cases (c := c) s t call with
    ⟨popped, delivered, queue, accepted⟩ | ⟨item, pushed, pred, pos, plan, found, delivered, accepted, queue⟩
  · rw [delivered, accepted, List.append_assoc, ← queue]
    exact inv key
  · rw [delivered, accepted, queue, ← List.append_assoc]
    by_cases keyed : dedupKey c pushed = some key
    · simp [keyed]
    · have erased := filter_eraseAt_of_findIf (f := fun m => dedupKey c m == some key)
        (fun cur accepts => by
          obtain ⟨-, same⟩ := supersedes_eq_true.mp (plan_pred_supersedes plan accepts)
          simpa [same] using keyed) found
      have dropped : [pushed].filter (fun m => dedupKey c m == some key) = [] := by simp [keyed]
      simp only [List.filter_append, dropped, List.append_nil, erased]
      rw [← List.filter_append]
      exact inv key

/-! ## No stale value is queued -/

variable (c) in
/-- Every queued message with a key is the newest accepted message with that key. -/
def QueuedNewest (s : Session) (t : Transcript) : Prop :=
  ∀ m ∈ s.queue, ∀ key, dedupKey c m = some key →
    (t.accepted.filter (fun m' => dedupKey c m' == some key)).getLast? = some m

variable (c) in
/-- What the states a run reaches keep: the queued messages are well formed, none has the key
of one queued after it, and each keyed one is the newest accepted with its key. -/
structure Fresh (s : Session) (t : Transcript) : Prop where
  wellFormed : WellFormed c s.queue
  unique : s.queue.Pairwise fun older newer => supersedes c newer older = false
  newest : QueuedNewest c s t

/-- Accepting an item on a fresh deque erases every queued message it supersedes. -/
theorem Fresh.eraseAt_eq {s : Session} {t : Transcript} (inv : Fresh c s t) {item pushed : Message}
    {pred : Message → Except ε Bool} {pos : Option Nat} (plan : dedupPlan c item = .ok (pushed, pred))
    (found : findIf pred s.queue = .ok pos) :
    eraseAt s.queue pos = s.queue.filter fun m => !supersedes c pushed m := by
  rw [findIf_eq_findIdx? pred _ s.queue fun cur mem =>
    plan_pred_eq_supersedes plan (inv.wellFormed cur mem)] at found
  rw [← Except.ok.inj found]
  exact eraseAt_findIdx? _ _ (inv.unique.imp fun kept both => by
    simp [supersedes_of_common both.1 both.2] at kept)

theorem Fresh.step {s : Session} {t : Transcript} (inv : Fresh c s t) (call : Call) :
    Fresh c (s.step c call) (t.record c s call) := by
  rcases Transcript.record_cases (c := c) s t call with
    ⟨popped, -, queue, accepted⟩ | ⟨item, pushed, pred, pos, plan, found, -, accepted, queue⟩
  · have suffix : (s.step c call).queue.Sublist s.queue := by
      rw [queue]
      exact List.sublist_append_right popped _
    refine ⟨fun m mem => inv.wellFormed m (suffix.subset mem), inv.unique.sublist suffix,
      fun m mem => ?_⟩
    rw [accepted]
    exact inv.newest m (suffix.subset mem)
  · have shape : (s.step c call).queue = s.queue.filter (fun m => !supersedes c pushed m) ++ [pushed] := by
      rw [queue, inv.eraseAt_eq plan found]
    refine ⟨?_, ?_, fun m mem key keyed => ?_⟩
    · rw [shape]
      exact WellFormed.push (fun m mem => inv.wellFormed m (List.mem_filter.mp mem).1)
        (plan_pushed_wellFormed plan)
    · rw [shape]
      refine List.pairwise_append.mpr ⟨inv.unique.filter _, List.pairwise_singleton _ _,
        fun older mem newer newerMem => ?_⟩
      rw [List.mem_singleton.mp newerMem]
      simpa using (List.mem_filter.mp mem).2
    · rw [accepted]
      rw [shape] at mem
      rcases List.mem_append.mp mem with kept | pushedHere
      · obtain ⟨queued, notSuperseded⟩ := List.mem_filter.mp kept
        have other : dedupKey c pushed ≠ some key := fun same => by
          simp [supersedes_of_key same, keyed] at notSuperseded
        have dropped : [pushed].filter (fun m' => dedupKey c m' == some key) = [] := by simp [other]
        rw [List.filter_append, dropped, List.append_nil]
        exact inv.newest m queued key keyed
      · rw [List.mem_singleton.mp pushedHere] at keyed ⊢
        simp [keyed]

/-- With the flag down, on a fresh deque, `enqueue` changes nothing when the incoming message's
own parse fails; otherwise it accepts the message in its `queuedForm`, erasing every queued
message that supersedes, not only the first one `find_if` meets. -/
theorem Fresh.enqueue_cases {q : List Message} {t : Transcript} (inv : Fresh c ⟨false, q⟩ t)
    (item : Message) :
    (queuedForm c item = none ∧ (t.record c ⟨false, q⟩ (.enqueue item)).accepted = t.accepted ∧
      (Session.step c ⟨false, q⟩ (.enqueue item)).queue = q) ∨
    ∃ pushed, queuedForm c item = some pushed ∧
      (t.record c ⟨false, q⟩ (.enqueue item)).accepted = t.accepted ++ [pushed] ∧
      (Session.step c ⟨false, q⟩ (.enqueue item)).queue =
        q.filter (fun old => !supersedes c pushed old) ++ [pushed] := by
  rcases enqueue_run_of_wellFormed inv.wellFormed false item with
    ⟨raised, -⟩ | ⟨e, -, plan, ran⟩ | ⟨pushed, pred, pos, -, plan, found, ran⟩
  · cases raised
  · exact .inl ⟨queuedForm_of_incomingParseError (plan_error plan),
      by simp [Transcript.record, itemToPush_run, plan], by simp [Session.step, ran]⟩
  · exact .inr ⟨pushed, plan_queuedForm plan, by simp [Transcript.record, itemToPush_run, plan, found],
      by simp only [Session.step, ran, inv.eraseAt_eq plan found]⟩

/-! ## Runs from the empty queue -/

variable (c)

theorem Session.runRecorded_deliveredInOrder (calls : List Call) :
    DeliveredInOrder (Session.empty.runRecorded c Transcript.empty calls).1
      (Session.empty.runRecorded c Transcript.empty calls).2 :=
  Session.runRecorded_induction _ (fun _ _ call inv => inv.step call) calls _ _ (List.Sublist.refl [])

theorem Session.runRecorded_keylessKept (calls : List Call) :
    KeylessKept c (Session.empty.runRecorded c Transcript.empty calls).1
      (Session.empty.runRecorded c Transcript.empty calls).2 :=
  Session.runRecorded_induction _ (fun _ _ call inv => inv.step call) calls _ _ rfl

theorem Session.runRecorded_newestKept (calls : List Call) :
    NewestKept c (Session.empty.runRecorded c Transcript.empty calls).1
      (Session.empty.runRecorded c Transcript.empty calls).2 :=
  Session.runRecorded_induction _ (fun _ _ call inv => inv.step call) calls _ _ fun _ => rfl

theorem Session.runRecorded_fresh (calls : List Call) :
    Fresh c (Session.empty.runRecorded c Transcript.empty calls).1
      (Session.empty.runRecorded c Transcript.empty calls).2 :=
  Session.runRecorded_induction _ (fun _ _ call inv => inv.step call) calls _ _
    ⟨fun _ mem => (nomatch mem), .nil, fun _ mem => (nomatch mem)⟩

end SenderQueue

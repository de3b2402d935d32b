import SenderQueue.Invariant

/-! # The coalescing law

What the queue is for, stated over the history of a run: the deque holds the accepted
messages in arrival order, less those `dequeue` returned and those superseded by a later
accepted message with the same key. Keys are the identities of the dedup table in the spec:
a tile descriptor, the cursor, the current part, the live progress value, a view id.

`deduplicate` erases only the first queued message its predicate accepts. That is enough
because the law itself keeps at most one pending entry per key, and on well-formed queued
messages each predicate accepts exactly the entries with the incoming message's key.
-/

namespace SenderQueue

/-- The identities the dedup table coalesces by. -/
inductive DedupKey (TileDesc : Type)
  | tile (tile : TileDesc)
  | cursor
  | setPart
  | progressSetValue
  | view (viewId : String)
deriving DecidableEq

variable {ε TileDesc : Type} (c : Collaborators ε TileDesc)

/-- The key of a message, following the spec's table; `none` for a message no later one can
supersede. -/
def dedupKey (m : Message) : Option (DedupKey TileDesc) :=
  if m.firstToken = "tile:" then (c.parseTile m.firstLine).toOption.map .tile
  else if m.firstToken = "invalidatecursor:" then some .cursor
  else if m.firstToken = "setpart:" then some .setPart
  else if m.firstToken = "progress:" then
    if m.contains setvalueTag then some .progressSetValue else none
  else if m.firstToken = "invalidateviewcursor:" then (c.viewId m.jsonString).toOption.map .view
  else none

variable {c}

section Keys

variable {m : Message}

/-- Everything `dedupKey` can be, one case per branch of its `if` chain with the branch's
guard. -/
theorem dedupKey_cases (m : Message) :
    (m.firstToken = "tile:" ∧ dedupKey c m = (c.parseTile m.firstLine).toOption.map .tile) ∨
    (m.firstToken = "invalidatecursor:" ∧ dedupKey c m = some .cursor) ∨
    (m.firstToken = "setpart:" ∧ dedupKey c m = some .setPart) ∨
    (m.firstToken = "progress:" ∧
      dedupKey c m = if m.contains setvalueTag then some .progressSetValue else none) ∨
    (m.firstToken = "invalidateviewcursor:" ∧
      dedupKey c m = (c.viewId m.jsonString).toOption.map .view) ∨
    ((m.firstToken ≠ "tile:" ∧ m.firstToken ≠ "invalidatecursor:" ∧ m.firstToken ≠ "setpart:" ∧
      m.firstToken ≠ "progress:" ∧ m.firstToken ≠ "invalidateviewcursor:") ∧
      dedupKey c m = none) := by
  by_cases tile : m.firstToken = "tile:"
  · exact .inl ⟨tile, if_pos tile⟩
  by_cases cursor : m.firstToken = "invalidatecursor:"
  · exact .inr (.inl ⟨cursor, by rw [dedupKey, if_neg tile, if_pos cursor]⟩)
  by_cases setPart : m.firstToken = "setpart:"
  · exact .inr (.inr (.inl ⟨setPart, by rw [dedupKey, if_neg tile, if_neg cursor, if_pos setPart]⟩))
  by_cases progress : m.firstToken = "progress:"
  · exact .inr (.inr (.inr (.inl ⟨progress, by
      rw [dedupKey, if_neg tile, if_neg cursor, if_neg setPart, if_pos progress]⟩)))
  by_cases view : m.firstToken = "invalidateviewcursor:"
  · exact .inr (.inr (.inr (.inr (.inl ⟨view, by
      rw [dedupKey, if_neg tile, if_neg cursor, if_neg setPart, if_neg progress, if_pos view]⟩))))
  · exact .inr (.inr (.inr (.inr (.inr ⟨⟨tile, cursor, setPart, progress, view⟩, by
      rw [dedupKey, if_neg tile, if_neg cursor, if_neg setPart, if_neg progress, if_neg view]⟩))))

theorem dedupKey_eq_tile {tile : TileDesc} :
    dedupKey c m = some (.tile tile) ↔
      m.firstToken = "tile:" ∧ (c.parseTile m.firstLine).toOption = some tile := by
  rcases dedupKey_cases (c := c) m with
    ⟨tok, key⟩ | ⟨tok, key⟩ | ⟨tok, key⟩ | ⟨tok, key⟩ | ⟨tok, key⟩ | ⟨tok, key⟩ <;> simp [tok, key]

theorem dedupKey_eq_cursor : dedupKey c m = some .cursor ↔ m.firstToken = "invalidatecursor:" := by
  rcases dedupKey_cases (c := c) m with
    ⟨tok, key⟩ | ⟨tok, key⟩ | ⟨tok, key⟩ | ⟨tok, key⟩ | ⟨tok, key⟩ | ⟨tok, key⟩ <;> simp [tok, key]

theorem dedupKey_eq_setPart : dedupKey c m = some .setPart ↔ m.firstToken = "setpart:" := by
  rcases dedupKey_cases (c := c) m with
    ⟨tok, key⟩ | ⟨tok, key⟩ | ⟨tok, key⟩ | ⟨tok, key⟩ | ⟨tok, key⟩ | ⟨tok, key⟩ <;> simp [tok, key]

theorem dedupKey_eq_progressSetValue :
    dedupKey c m = some .progressSetValue ↔
      m.firstToken = "progress:" ∧ m.contains setvalueTag = true := by
  rcases dedupKey_cases (c := c) m with
    ⟨tok, key⟩ | ⟨tok, key⟩ | ⟨tok, key⟩ | ⟨tok, key⟩ | ⟨tok, key⟩ | ⟨tok, key⟩ <;> simp [tok, key]

theorem dedupKey_eq_view {viewId : String} :
    dedupKey c m = some (.view viewId) ↔
      m.firstToken = "invalidateviewcursor:" ∧ (c.viewId m.jsonString).toOption = some viewId := by
  rcases dedupKey_cases (c := c) m with
    ⟨tok, key⟩ | ⟨tok, key⟩ | ⟨tok, key⟩ | ⟨tok, key⟩ | ⟨tok, key⟩ | ⟨tok, key⟩ <;> simp [tok, key]

end Keys

variable [DecidableEq TileDesc]

variable (c) in
/-- `newer` supersedes `older`: both carry the same key. -/
def supersedes (newer older : Message) : Bool :=
  (dedupKey c newer).isSome && dedupKey c older == dedupKey c newer

theorem supersedes_of_key {m : Message} {key : DedupKey TileDesc} (keyed : dedupKey c m = some key)
    (older : Message) : supersedes c m older = decide (dedupKey c older = some key) := by
  simp [supersedes, keyed, Bool.beq_eq_decide_eq]

theorem supersedes_of_no_key {m : Message} (keyless : dedupKey c m = none) (older : Message) :
    supersedes c m older = false := by
  simp [supersedes, keyless]

/-- On a well-formed queued message, the predicate of a plan is "the handed-back item
supersedes it". -/
theorem plan_pred_eq_supersedes {item pushed cur : Message} {pred : Message → Except ε Bool}
    (plan : dedupPlan c item = .ok (pushed, pred)) (wf : QueuedWellFormed c cur) :
    pred cur = .ok (supersedes c pushed cur) := by
  rcases dedupPlan_cases plan with
    ⟨tile, newTile, parse, rfl, rfl⟩ | ⟨cursor, rfl, rfl⟩ | ⟨progress, tagged, rfl, rfl⟩ |
      ⟨view, viewId, parse, rfl, rfl⟩ | ⟨tile, cursor, setPart, view, progress, rfl, rfl⟩
  · have key : dedupKey c (item.setHash (c.equalityHash newTile)) = some (.tile newTile) :=
      dedupKey_eq_tile.mpr ⟨by simpa using tile, by simp [parse]⟩
    rw [tileMatches_of_tileCached wf.tile, supersedes_of_key key, isTileOf]
    simp [dedupKey_eq_tile, Bool.beq_eq_decide_eq]
  · rcases cursor with cursor | cursor
    · simp [supersedes_of_key (dedupKey_eq_cursor.mpr cursor), cursor, dedupKey_eq_cursor,
        Bool.beq_eq_decide_eq]
    · simp [supersedes_of_key (dedupKey_eq_setPart.mpr cursor), cursor, dedupKey_eq_setPart,
        Bool.beq_eq_decide_eq]
  · simp [supersedes_of_key (dedupKey_eq_progressSetValue.mpr ⟨progress, tagged⟩),
      dedupKey_eq_progressSetValue, Bool.beq_eq_decide_eq]
  · have key : dedupKey c pushed = some (.view viewId) :=
      dedupKey_eq_view.mpr ⟨view, by simp [parse]⟩
    rw [viewCursorMatches_of_wellFormed wf, supersedes_of_key key]
    simp [dedupKey_eq_view, Bool.beq_eq_decide_eq]
  · have keyless : dedupKey c pushed = none := by
      by_cases progressToken : pushed.firstToken = "progress:" <;>
        simp [dedupKey, tile, cursor, setPart, view, progressToken, progress]
    simp [supersedes_of_no_key keyless]

/-- Two messages a third supersedes supersede each other. -/
theorem supersedes_of_common {newer a b : Message} (left : supersedes c newer a)
    (right : supersedes c newer b) : supersedes c b a := by
  simp only [supersedes, Bool.and_eq_true, beq_iff_eq] at *
  refine ⟨?_, left.2.trans right.2.symm⟩
  rw [right.2]
  exact left.1

/-! ## The history of a run -/

/-- What the law is stated over: the accepted messages, in arrival order, and the arrival
positions of the entries `dequeue` handed back. -/
structure History where
  log : List Message
  returned : List Nat

def History.empty : History := ⟨[], []⟩

variable (c) in
/-- The entries of a log, numbered from `i`, that are still pending: `dequeue` has not
returned them and no later accepted message supersedes them. -/
def pendingFrom (returned : List Nat) : Nat → List Message → List (Nat × Message)
  | _, [] => []
  | i, m :: later =>
    if i ∉ returned ∧ later.any (supersedes c · m) = false then
      (i, m) :: pendingFrom returned (i + 1) later
    else pendingFrom returned (i + 1) later

variable (c) in
def History.pending (h : History) : List (Nat × Message) := pendingFrom c h.returned 0 h.log

section PendingFrom

variable {returned : List Nat}

theorem mem_pendingFrom {entry : Nat × Message} :
    ∀ {i : Nat} {log : List Message}, entry ∈ pendingFrom c returned i log →
      i ≤ entry.1 ∧ entry.1 < i + log.length ∧ entry.2 ∈ log
  | _, [], mem => nomatch mem
  | i, m :: later, mem => by
    have step : entry ∈ pendingFrom c returned (i + 1) later →
        i ≤ entry.1 ∧ entry.1 < i + (m :: later).length ∧ entry.2 ∈ m :: later := fun mem' => by
      have := mem_pendingFrom mem'
      simp only [List.length_cons, List.mem_cons]
      exact ⟨by omega, by omega, .inr this.2.2⟩
    simp only [pendingFrom] at mem
    split at mem
    · rcases List.mem_cons.mp mem with rfl | mem'
      · simp
      · exact step mem'
    · exact step mem

/-- Pending entries come in arrival order, and none supersedes an earlier one. -/
theorem pendingFrom_pairwise :
    ∀ (i : Nat) (log : List Message), (pendingFrom c returned i log).Pairwise
      fun a b => a.1 < b.1 ∧ supersedes c b.2 a.2 = false
  | _, [] => .nil
  | i, m :: later => by
    have rest := pendingFrom_pairwise (i + 1) later
    simp only [pendingFrom]
    split
    · next kept =>
      refine List.Pairwise.cons (fun b mem => ?_) rest
      obtain ⟨after, -, source⟩ := mem_pendingFrom mem
      simp only [List.any_eq_false] at kept
      exact ⟨by omega, by simpa using kept.2 b.2 source⟩
    · exact rest

/-- Accepting a message drops the pending entries it supersedes and adds it last. -/
theorem pendingFrom_append (x : Message) :
    ∀ (i : Nat) (log : List Message), i + log.length ∉ returned →
      pendingFrom c returned i (log ++ [x]) =
        (pendingFrom c returned i log).filter (fun entry => !supersedes c x entry.2) ++
          [(i + log.length, x)]
  | i, [], fresh => by simp_all [pendingFrom]
  | i, m :: later, fresh => by
    have rest := pendingFrom_append x (i + 1) later (by simpa [Nat.add_assoc, Nat.add_comm 1] using fresh)
    rw [List.cons_append]
    simp only [pendingFrom]
    rw [rest]
    simp only [List.any_append, List.any_cons, List.any_nil, Bool.or_false, Bool.or_eq_false_iff,
      List.length_cons]
    by_cases returnedAt : i ∈ returned <;> by_cases older : later.any (supersedes c · m) = false <;>
      by_cases superseded : supersedes c x m <;>
      simp [returnedAt, older, superseded, List.filter_cons, Nat.add_assoc, Nat.add_comm 1]

/-- Returning position `j` drops it from the pending entries. -/
theorem pendingFrom_returned (j : Nat) :
    ∀ (i : Nat) (log : List Message),
      pendingFrom c (j :: returned) i log =
        (pendingFrom c returned i log).filter (fun entry => entry.1 ≠ j)
  | _, [] => rfl
  | i, m :: later => by
    have rest := pendingFrom_returned j (i + 1) later
    by_cases here : i = j
    · subst here
      simp only [pendingFrom, List.mem_cons, true_or, not_true_eq_false, false_and, if_false, rest]
      split <;> simp
    · simp only [pendingFrom, List.mem_cons, here, false_or, rest]
      split <;> simp [here]

end PendingFrom

/-! ## Recording a run

The history is the spec's side of the refinement. An `enqueue` with the flag down accepts the
incoming message in its `queuedForm` unless the message's own parse fails, whatever
`deduplicate` makes of it; a message `dequeue` hands back is taken out of the pending entries.
-/

def History.accept (h : History) (m : Message) : History := { h with log := h.log ++ [m] }

variable (c) in
/-- `dequeue` handed back `m`: the oldest pending entry holding `m` is returned. -/
def History.take (h : History) (m : Message) : History :=
  match (h.pending c).find? (fun entry => entry.2 == m) with
  | some (i, _) => { h with returned := i :: h.returned }
  | none => h

variable (c) in
/-- What one call adds to the history: the incoming message an `enqueue` accepts, or the
message `dequeue` hands back. -/
def History.record (s : Session) (h : History) : Call → History
  | .enqueue item =>
    if s.terminationFlag then h
    else match queuedForm c item with
      | some queued => h.accept queued
      | none => h
  | .dequeue =>
    match ((dequeue s.terminationFlag).run s.queue).1 with
    | some m => h.take c m
    | none => h
  | .setTerminationFlag => h

variable (c) in
/-- A run from the empty queue, with its history alongside. -/
def traced (calls : List Call) : Session × History :=
  calls.foldl (fun run call => (run.1.step c call, run.2.record c run.1 call))
    (Session.empty, History.empty)

theorem traced_fst (calls : List Call) : (traced c calls).1 = Session.empty.run c calls := by
  induction calls using List.reverseRecOn with
  | nil => rfl
  | append_singleton calls call ih =>
    simp only [traced, Session.run, List.foldl_append, List.foldl_cons, List.foldl_nil] at ih ⊢
    rw [ih]

theorem History.record_of_terminated {s : Session} (raised : s.terminationFlag = true)
    (h : History) (call : Call) : h.record c s call = h := by
  obtain ⟨flag, q⟩ := s
  subst raised
  cases call <;> simp [History.record, dequeue_run]

section Take

variable {h : History} {i : Nat} {m : Message} {rest : List (Nat × Message)}
  (first : h.pending c = (i, m) :: rest)
include first

/-- Handing back the message of the oldest pending entry returns that entry. -/
theorem History.take_head : h.take c m = { h with returned := i :: h.returned } := by
  simp [History.take, first]

/-- Returning the oldest pending entry leaves the entries after it pending. -/
theorem History.pending_returned_head :
    ({ h with returned := i :: h.returned } : History).pending c = rest := by
  have ordered : (pendingFrom c h.returned 0 h.log).Pairwise
      fun a b => a.1 < b.1 ∧ supersedes c b.2 a.2 = false := pendingFrom_pairwise 0 h.log
  rw [← History.pending, first, List.pairwise_cons] at ordered
  rw [History.pending, pendingFrom_returned, ← History.pending, first, List.filter_cons,
    List.filter_eq_self.mpr fun b mem => by simpa using Nat.ne_of_gt (ordered.1 b mem).1]
  simp

theorem History.pending_head_lt : i < h.log.length := by
  have mem : (i, m) ∈ pendingFrom c h.returned 0 h.log := by
    rw [← History.pending, first]
    exact List.mem_cons_self _ _
  have := (mem_pendingFrom mem).2.1
  omega

end Take

variable (c) in
/-- The refinement relation: the deque is the pending entries' messages, and it is well
formed; every returned position is one the log has. -/
structure Coalesced (s : Session) (h : History) : Prop where
  queue : s.queue = (h.pending c).map Prod.snd
  wellFormed : WellFormed c s.queue
  returnedBound : ∀ i ∈ h.returned, i < h.log.length

theorem Coalesced.empty : Coalesced c Session.empty History.empty :=
  ⟨rfl, fun _ mem => (nomatch mem), fun _ mem => (nomatch mem)⟩

/-- A call that leaves the deque as it was, recording nothing, keeps the relation. -/
theorem Coalesced.of_queue_eq {s s' : Session} {h : History} (inv : Coalesced c s h)
    (same : s'.queue = s.queue) : Coalesced c s' h :=
  ⟨same.trans inv.queue, same ▸ inv.wellFormed, inv.returnedBound⟩

section Step

variable {q : List Message} {h : History} (inv : Coalesced c ⟨false, q⟩ h)
include inv

/-- Appending an accepted message after erasing the first entry it supersedes is accepting it
into the history. -/
theorem Coalesced.accept_queue (pushed : Message) :
    eraseAt q (q.findIdx? (supersedes c pushed)) ++ [pushed] =
      ((h.accept pushed).pending c).map Prod.snd := by
  have unique : q.Pairwise fun a b => ¬ (supersedes c pushed a ∧ supersedes c pushed b) := by
    rw [show q = _ from inv.queue, List.pairwise_map]
    exact (pendingFrom_pairwise 0 h.log).imp fun ordered both => by
      simp [supersedes_of_common both.1 both.2] at ordered
  have fresh : 0 + h.log.length ∉ h.returned := fun mem => by
    have := inv.returnedBound _ mem
    omega
  rw [eraseAt_findIdx? _ _ unique, History.pending, History.accept, pendingFrom_append _ 0 _ fresh,
    show q = _ from inv.queue, History.pending, List.filter_map]
  simp
  rfl

/-- With the flag down, `enqueue` appends to the deque what the history accepts: nothing when
the incoming message's own parse fails, its `queuedForm` otherwise. -/
theorem Coalesced.enqueue (item : Message) :
    Coalesced c (Session.step c ⟨false, q⟩ (.enqueue item)) (h.record c ⟨false, q⟩ (.enqueue item)) := by
  rcases enqueue_run_of_wellFormed inv.wellFormed false item with
    ⟨raised, -⟩ | ⟨e, -, plan, ran⟩ | ⟨pushed, pred, pos, -, plan, found, ran⟩
  · cases raised
  · have recorded : h.record c ⟨false, q⟩ (.enqueue item) = h := by
      simp [History.record, queuedForm_of_incomingParseError (plan_error plan)]
    rw [recorded]
    exact inv.of_queue_eq (by simp [Session.step, ran])
  · have recorded : h.record c ⟨false, q⟩ (.enqueue item) = h.accept pushed := by
      simp [History.record, plan_queuedForm plan]
    have position : pos = q.findIdx? (supersedes c pushed) := by
      rw [findIf_eq_findIdx? pred _ q fun cur mem =>
        plan_pred_eq_supersedes plan (inv.wellFormed cur mem)] at found
      exact (Except.ok.inj found).symm
    rw [recorded]
    refine ⟨?_, Session.step_wellFormed inv.wellFormed _, fun i mem => ?_⟩
    · simp only [Session.step, ran, position]
      exact inv.accept_queue pushed
    · simpa [History.accept] using Nat.lt_succ_of_lt (inv.returnedBound i mem)

/-- With the flag down, `dequeue` hands back the front of the deque, the message of the oldest
pending entry, and the history returns that entry. -/
theorem Coalesced.dequeue :
    Coalesced c (Session.step c ⟨false, q⟩ .dequeue) (h.record c ⟨false, q⟩ .dequeue) := by
  cases pending : h.pending c with
  | nil =>
    have empty : q = [] := by simpa [pending] using inv.queue
    subst empty
    exact inv.of_queue_eq rfl
  | cons entry rest =>
    obtain ⟨i, m⟩ := entry
    have shape : q = m :: rest.map Prod.snd := by simpa [pending] using inv.queue
    subst shape
    have recorded : h.record c ⟨false, m :: rest.map Prod.snd⟩ .dequeue =
        { h with returned := i :: h.returned } := by
      simp only [History.record, dequeue_run, Bool.false_eq_true, if_false, List.head?_cons]
      exact History.take_head pending
    rw [recorded]
    refine ⟨?_, Session.step_wellFormed inv.wellFormed _, ?_⟩
    · rw [History.pending_returned_head pending]
      rfl
    · rintro j (_ | ⟨_, mem⟩)
      · exact (History.pending_head_lt pending : i < h.log.length)
      · exact inv.returnedBound j mem

end Step

/-- Every call keeps the deque equal to the pending entries of the history it records. -/
theorem Coalesced.step {s : Session} {h : History} (inv : Coalesced c s h) (call : Call) :
    Coalesced c (s.step c call) (h.record c s call) := by
  obtain ⟨flag, q⟩ := s
  cases flag
  · cases call with
    | enqueue item => exact inv.enqueue item
    | dequeue => exact inv.dequeue
    | setTerminationFlag => exact inv.of_queue_eq rfl
  · rw [Session.step_of_terminated rfl, History.record_of_terminated rfl]
    exact inv

theorem traced_coalesced (calls : List Call) : Coalesced c (traced c calls).1 (traced c calls).2 := by
  induction calls using List.reverseRecOn with
  | nil => exact Coalesced.empty
  | append_singleton calls call ih =>
    simp only [traced, List.foldl_append, List.foldl_cons, List.foldl_nil] at ih ⊢
    exact ih.step call

variable (c) in
/-- The coalescing law. After any run from the empty queue (enqueues from any producers,
dequeues, the termination flag raised at any point, exceptions included) the deque is the
sequence of accepted messages in arrival order, less every message `dequeue` handed back and
every keyed message a later accepted message with the same key supersedes; and the next
`dequeue` hands back the oldest of them, unless the flag is up. -/
theorem queue_eq_pending (calls : List Call) :
    let s := Session.empty.run c calls
    s.queue = ((traced c calls).2.pending c).map Prod.snd ∧
    ((dequeue s.terminationFlag).run s.queue).1 =
      if s.terminationFlag then none else ((traced c calls).2.pending c).head?.map Prod.snd := by
  have law : (Session.empty.run c calls).queue = ((traced c calls).2.pending c).map Prod.snd := by
    rw [← traced_fst]
    exact (traced_coalesced calls).queue
  refine ⟨law, ?_⟩
  rw [dequeue_run, law]
  split <;> simp [List.head?_map]

variable (c) in
/-- At most one queued message per key: in every reachable state no queued message is
superseded by one queued after it. -/
theorem reachable_one_entry_per_key (calls : List Call) :
    (Session.empty.run c calls).queue.Pairwise fun older newer =>
      supersedes c newer older = false := by
  rw [← traced_fst, (traced_coalesced calls).queue, List.pairwise_map]
  exact (pendingFrom_pairwise 0 _).imp And.right

end SenderQueue

import SenderQueue.Queue

/-! # What every reachable queue satisfies

Only messages whose own parse succeeded are appended, and a `tile:` message is appended with
its position hash already cached, so every queued message passes the parses that
`deduplicate`'s predicates run on it again. Hence the predicates never throw on a reachable
queue, the hash gate of the `tile:` branch loses nothing, and an exception out of `enqueue`
always comes from the incoming message.
-/

namespace SenderQueue

variable {ε TileDesc : Type} [DecidableEq TileDesc] (c : Collaborators ε TileDesc)

/-- A `tile:` message's first line parses, and its cached hash is that descriptor's
`equalityHash`. -/
def TileCached (m : Message) : Prop :=
  m.firstToken = "tile:" → ∃ tile, c.parseTile m.firstLine = .ok tile ∧ m.hash = c.equalityHash tile

/-- A queued message passes the parses run on it again: `TileCached`, and an
`invalidateviewcursor:` message's payload yields a `viewId`. -/
structure QueuedWellFormed (m : Message) : Prop where
  tile : TileCached c m
  view : m.firstToken = "invalidateviewcursor:" → ∃ viewId, c.viewId m.jsonString = .ok viewId

def WellFormed (queue : List Message) : Prop := ∀ m ∈ queue, QueuedWellFormed c m

/-- The exception of parsing the incoming message in `deduplicate`. -/
def IncomingParseError (item : Message) (e : ε) : Prop :=
  (item.firstToken = "tile:" ∧ c.parseTile item.firstLine = .error e) ∨
  (item.firstToken = "invalidateviewcursor:" ∧ c.viewId item.jsonString = .error e)

/-- The spec's account of what an accepted incoming message is queued as, written apart from
`deduplicate`: a `tile:` message with its descriptor's `equalityHash` cached, any other
message as it came; `none` when the message's own parse fails. -/
def queuedForm (item : Message) : Option Message :=
  if item.firstToken = "tile:" then
    (c.parseTile item.firstLine).toOption.map fun tile => item.setHash (c.equalityHash tile)
  else if item.firstToken = "invalidateviewcursor:" then
    (c.viewId item.jsonString).toOption.map fun _ => item
  else some item

/-- The ungated search of the `tile:` branch: a queued tile whose descriptor, parsed, equals
the new one. -/
def tileEquals (newTile : TileDesc) (cur : Message) : Except ε Bool :=
  if cur.firstTokenMatches "tile:" then do
    let curTile ← c.parseTile cur.firstLine
    return newTile == curTile
  else pure false

/-- A queued tile carrying `tile`, as a test. -/
def isTileOf (tile : TileDesc) (cur : Message) : Bool :=
  cur.firstToken == "tile:" && (c.parseTile cur.firstLine).toOption == some tile

variable {c}

section Predicates

variable {cur : Message}

theorem tileEquals_of_tileCached (cached : TileCached c cur) (newTile : TileDesc) :
    tileEquals c newTile cur = .ok (isTileOf c newTile cur) := by
  by_cases tile : cur.firstToken = "tile:"
  · obtain ⟨curTile, parse, -⟩ := cached tile
    simp [tileEquals, isTileOf, tile, parse]
    exact eq_comm
  · simp [tileEquals, isTileOf, tile]

/-- On a message whose hash is cached the gate only cuts comparisons that would fail. -/
theorem tileMatches_of_tileCached (cached : TileCached c cur) (newTile : TileDesc) :
    tileMatches c newTile (c.equalityHash newTile) cur = .ok (isTileOf c newTile cur) := by
  by_cases tile : cur.firstToken = "tile:"
  · obtain ⟨curTile, parse, hash⟩ := cached tile
    by_cases gate : c.equalityHash newTile = cur.hash
    · simp [tileMatches, isTileOf, tile, parse, gate]
      exact eq_comm
    · have differ : newTile ≠ curTile := fun same => gate (by rw [hash, same])
      simp [tileMatches, isTileOf, tile, parse, gate, Ne.symm differ]
  · simp [tileMatches, isTileOf, tile]

theorem tileMatches_total (cached : TileCached c cur) (newTile : TileDesc)
    (newTilePosHash : UInt32) : ∃ b, tileMatches c newTile newTilePosHash cur = .ok b := by
  by_cases tile : cur.firstToken = "tile:"
  · obtain ⟨curTile, parse, -⟩ := cached tile
    by_cases gate : newTilePosHash = cur.hash <;> simp [tileMatches, tile, parse, gate]
  · simp [tileMatches, tile]

variable (wf : QueuedWellFormed c cur)
include wf

omit [DecidableEq TileDesc] in
theorem viewCursorMatches_of_wellFormed (viewId : String) :
    viewCursorMatches c "invalidateviewcursor:" viewId cur =
      .ok (cur.firstToken == "invalidateviewcursor:" &&
        (c.viewId cur.jsonString).toOption == some viewId) := by
  by_cases view : cur.firstToken = "invalidateviewcursor:"
  · obtain ⟨curViewId, parse⟩ := wf.view view
    simp [viewCursorMatches, view, parse]
    exact eq_comm
  · simp [viewCursorMatches, view]

/-- The predicate of any plan returns on a well-formed message. -/
theorem plan_pred_total {item pushed : Message} {pred : Message → Except ε Bool}
    (plan : dedupPlan c item = .ok (pushed, pred)) : ∃ b, pred cur = .ok b := by
  rcases dedupPlan_cases plan with
    ⟨-, newTile, -, -, rfl⟩ | ⟨-, -, rfl⟩ | ⟨-, -, -, rfl⟩ | ⟨-, viewId, -, -, rfl⟩ |
      ⟨-, -, -, -, -, -, rfl⟩
  · exact tileMatches_total wf.tile newTile _
  all_goals first
    | exact ⟨_, rfl⟩
    | exact ⟨_, viewCursorMatches_of_wellFormed wf viewId⟩

end Predicates

/-- The item a plan hands back is well formed. -/
theorem plan_pushed_wellFormed {item pushed : Message} {pred : Message → Except ε Bool}
    (plan : dedupPlan c item = .ok (pushed, pred)) : QueuedWellFormed c pushed := by
  rcases dedupPlan_cases plan with
    ⟨tile, newTile, parse, rfl, -⟩ | ⟨cursor, rfl, -⟩ | ⟨progress, -, rfl, -⟩ |
      ⟨view, viewId, parse, rfl, -⟩ | ⟨tile, -, -, view, -, rfl, -⟩
  · exact ⟨fun _ => ⟨newTile, by simpa using parse, rfl⟩, fun view => by simp [tile] at view⟩
  · exact ⟨fun tile => by rcases cursor with h | h <;> simp [h] at tile,
      fun view => by rcases cursor with h | h <;> simp [h] at view⟩
  · exact ⟨fun tile => by simp [progress] at tile, fun view => by simp [progress] at view⟩
  · exact ⟨fun tile => by simp [view] at tile, fun _ => ⟨viewId, parse⟩⟩
  · exact ⟨fun h => absurd h tile, fun h => absurd h view⟩

/-- A plan fails only on the incoming message's own parse. -/
theorem plan_error {item : Message} {e : ε} (plan : dedupPlan c item = .error e) :
    IncomingParseError c item e := by
  unfold dedupPlan at plan
  dsimp only at plan
  by_cases tile : item.firstToken = "tile:"
  · rw [if_pos tile] at plan
    rcases parse : c.parseTile item.firstLine with e' | newTile <;> rw [parse] at plan <;>
      cases plan
    exact .inl ⟨tile, parse⟩
  by_cases view : item.firstToken = "invalidateviewcursor:"
  · have other : ¬(item.firstToken = "invalidatecursor:" ∨ item.firstToken = "setpart:") ∧
        item.firstToken ≠ "progress:" := by simp [view]
    rw [if_neg tile, if_neg other.1, if_neg other.2, if_pos view] at plan
    rcases parse : c.viewId item.jsonString with e' | viewId <;> rw [parse] at plan <;>
      cases plan
    exact .inr ⟨view, parse⟩
  · rw [if_neg tile] at plan
    split_ifs at plan <;> cases plan

/-- The item a plan hands back is the incoming message in its `queuedForm`. -/
theorem plan_queuedForm {item pushed : Message} {pred : Message → Except ε Bool}
    (plan : dedupPlan c item = .ok (pushed, pred)) : queuedForm c item = some pushed := by
  rcases dedupPlan_cases plan with
    ⟨tile, newTile, parse, rfl, -⟩ | ⟨cursor, rfl, -⟩ | ⟨progress, -, rfl, -⟩ |
      ⟨view, viewId, parse, rfl, -⟩ | ⟨tile, -, -, view, -, rfl, -⟩
  · simp [queuedForm, tile, parse]
  · rcases cursor with token | token <;> simp [queuedForm, token]
  · simp [queuedForm, progress]
  · simp [queuedForm, view, parse]
  · rw [queuedForm, if_neg tile, if_neg view]

theorem plan_of_incomingParseError {item : Message} {e : ε}
    (incoming : IncomingParseError c item e) : dedupPlan c item = .error e := by
  rcases incoming with ⟨tile, parse⟩ | ⟨view, parse⟩
  · simp [dedupPlan, tile, parse]
  · simp [dedupPlan, view, parse]

omit [DecidableEq TileDesc] in
theorem queuedForm_of_incomingParseError {item : Message} {e : ε}
    (incoming : IncomingParseError c item e) : queuedForm c item = none := by
  rcases incoming with ⟨tile, parse⟩ | ⟨view, parse⟩
  · simp [queuedForm, tile, parse, Except.toOption]
  · simp [queuedForm, view, parse, Except.toOption]

omit [DecidableEq TileDesc] in
/-- A queued form is the incoming message, with the `equalityHash` of its parsed descriptor
cached when it is a tile. -/
theorem queuedForm_eq_some {item pushed : Message} (queued : queuedForm c item = some pushed) :
    (item.firstToken = "tile:" → ∃ tile, c.parseTile item.firstLine = .ok tile ∧
      pushed = item.setHash (c.equalityHash tile)) ∧
    (item.firstToken ≠ "tile:" → pushed = item) := by
  by_cases tile : item.firstToken = "tile:"
  · rw [queuedForm, if_pos tile] at queued
    refine ⟨fun _ => ?_, fun other => absurd tile other⟩
    rcases parse : c.parseTile item.firstLine with e | newTile <;>
      simp [parse, Except.toOption] at queued
    exact ⟨newTile, rfl, queued.symm⟩
  · rw [queuedForm, if_neg tile] at queued
    refine ⟨fun other => absurd other tile, fun _ => ?_⟩
    split at queued
    · obtain ⟨-, -, same⟩ := Option.map_eq_some'.mp queued
      exact same.symm
    · exact (Option.some.inj queued).symm

/-- On a well-formed deque `enqueue` does one of three things: nothing once the flag is up;
throw the incoming message's own parse error, leaving the deque as it was; or erase the plan's
first match and append the plan's item. -/
theorem enqueue_run_of_wellFormed {q : List Message} (wf : WellFormed c q)
    (terminationFlag : Bool) (item : Message) :
    (terminationFlag = true ∧ (enqueue c terminationFlag item).run.run q = (.ok q.length, q)) ∨
    (∃ e, terminationFlag = false ∧ dedupPlan c item = .error e ∧
      (enqueue c terminationFlag item).run.run q = (.error e, q)) ∨
    (∃ pushed pred pos, terminationFlag = false ∧ dedupPlan c item = .ok (pushed, pred) ∧
      findIf pred q = .ok pos ∧
      (enqueue c terminationFlag item).run.run q =
        (.ok (eraseAt q pos ++ [pushed]).length, eraseAt q pos ++ [pushed])) := by
  cases terminationFlag
  · rw [enqueue_run, itemToPush_run]
    rcases plan : dedupPlan c item with e | ⟨pushed, pred⟩
    · exact .inr (.inl ⟨e, rfl, rfl, rfl⟩)
    · obtain ⟨pos, found⟩ := findIf_ok_of_total pred q fun cur mem => plan_pred_total (wf cur mem) plan
      refine .inr (.inr ⟨pushed, pred, pos, rfl, rfl, found, ?_⟩)
      simp only [Bool.false_eq_true, if_false, found]
  · exact .inl ⟨rfl, rfl⟩

omit [DecidableEq TileDesc] in
theorem WellFormed.eraseAt {q : List Message} (wf : WellFormed c q) (pos : Option Nat) :
    WellFormed c (SenderQueue.eraseAt q pos) := by
  cases pos with
  | none => exact wf
  | some pos => exact fun m mem => wf m ((List.eraseIdx_sublist q pos).subset mem)

omit [DecidableEq TileDesc] in
theorem WellFormed.push {q : List Message} {m : Message} (wf : WellFormed c q)
    (wm : QueuedWellFormed c m) : WellFormed c (q ++ [m]) := by
  intro x mem
  rcases List.mem_append.mp mem with mem | mem
  · exact wf x mem
  · rw [List.mem_singleton.mp mem]
    exact wm

/-- Every call keeps the deque well formed. -/
theorem Session.step_wellFormed {s : Session} (wf : WellFormed c s.queue) (call : Call) :
    WellFormed c (s.step c call).queue := by
  cases call with
  | enqueue item =>
    rcases enqueue_run_of_wellFormed wf s.terminationFlag item with
      ⟨-, ran⟩ | ⟨e, -, -, ran⟩ | ⟨pushed, pred, pos, -, plan, -, ran⟩
    all_goals simp only [Session.step, ran]
    · exact wf
    · exact wf
    · exact (wf.eraseAt pos).push (plan_pushed_wellFormed plan)
  | dequeue =>
    simp only [Session.step, dequeue_run]
    split
    · exact wf
    · exact fun m mem => wf m (List.mem_of_mem_tail mem)
  | setTerminationFlag => exact wf

theorem Session.run_wellFormed (calls : List Call) :
    WellFormed c (Session.empty.run c calls).queue := by
  induction calls using List.reverseRecOn with
  | nil => exact fun _ mem => nomatch mem
  | append_singleton calls call ih =>
    rw [Session.run_append]
    exact Session.step_wellFormed ih call

/-! ## Reachable states -/

variable (c)

/-- In every reachable state the queued messages pass their parses, so the predicates of
`deduplicate` return on every queued message, and an exception out of `enqueue` is the
incoming message's own parse error, thrown with the deque untouched. -/
theorem reachable_parses_never_fail (calls : List Call) :
    let s := Session.empty.run c calls
    WellFormed c s.queue ∧
    (∀ cur ∈ s.queue, ∀ newTile newTilePosHash viewId,
      (∃ b, tileMatches c newTile newTilePosHash cur = .ok b) ∧
      (∃ b, viewCursorMatches c "invalidateviewcursor:" viewId cur = .ok b)) ∧
    ∀ terminationFlag item e q',
      (enqueue c terminationFlag item).run.run s.queue = (.error e, q') →
        IncomingParseError c item e ∧ q' = s.queue := by
  have wf := Session.run_wellFormed (c := c) calls
  refine ⟨wf, fun cur mem newTile newTilePosHash viewId =>
    ⟨tileMatches_total (wf cur mem).tile newTile newTilePosHash,
      _, viewCursorMatches_of_wellFormed (wf cur mem) viewId⟩, fun t item e q' threw => ?_⟩
  rcases enqueue_run_of_wellFormed wf t item with
    ⟨-, ran⟩ | ⟨e', -, plan, ran⟩ | ⟨_, _, _, -, -, -, ran⟩ <;> rw [ran] at threw
  · cases threw
  · obtain ⟨⟨⟩, ⟨⟩⟩ := Prod.mk.inj threw
    exact ⟨plan_error plan, rfl⟩
  · cases threw

/-- On a reachable deque, with the flag down, an incoming message whose own parse fails makes
`enqueue` rethrow that parse's exception and leave the deque as it was; any other message is
appended last, a tile with the `equalityHash` of its parsed descriptor cached and any other
message as it came, and `enqueue` returns the new size. -/
theorem enqueue_reachable_outcome (calls : List Call) (item : Message) :
    let q := (Session.empty.run c calls).queue
    (∀ e, IncomingParseError c item e → (enqueue c false item).run.run q = (.error e, q)) ∧
    ((∀ e, ¬ IncomingParseError c item e) → ∃ q' pushed,
      (enqueue c false item).run.run q = (.ok q'.length, q') ∧ q'.getLast? = some pushed ∧
        (item.firstToken = "tile:" → ∃ tile, c.parseTile item.firstLine = .ok tile ∧
          pushed = item.setHash (c.equalityHash tile)) ∧
        (item.firstToken ≠ "tile:" → pushed = item)) := by
  have wf := Session.run_wellFormed (c := c) calls
  refine ⟨fun e incoming => ?_, fun parses => ?_⟩ <;>
    rcases enqueue_run_of_wellFormed wf false item with
      ⟨raised, -⟩ | ⟨e', -, plan, ran⟩ | ⟨pushed, pred, pos, -, plan, -, ran⟩
  all_goals try cases raised
  · rw [plan_of_incomingParseError incoming] at plan
    cases plan
    exact ran
  · rw [plan_of_incomingParseError incoming] at plan
    cases plan
  · exact absurd (plan_error plan) (parses e')
  · exact ⟨_, pushed, ran, by simp, queuedForm_eq_some (plan_queuedForm plan)⟩

theorem enqueue_wellFormed_tile_delivered :
    let item : Message := ⟨"tile:", "tile: part=0", "", [], true, "", 7⟩
    ∃ q' pushed, (enqueue sampleCollaborators false item).run.run [] = (.ok q'.length, q') ∧
      q'.getLast? = some pushed ∧
      (item.firstToken = "tile:" → ∃ tile, sampleCollaborators.parseTile item.firstLine = .ok tile ∧
        pushed = item.setHash (sampleCollaborators.equalityHash tile)) ∧
      (item.firstToken ≠ "tile:" → pushed = item) :=
  (enqueue_reachable_outcome sampleCollaborators [] ⟨"tile:", "tile: part=0", "", [], true, "", 7⟩).2
    fun e incoming => by simp [IncomingParseError, sampleCollaborators] at incoming

/-- A `tile:` message whose first line `TileDesc::parse` rejects is not delivered: `enqueue`
throws. -/
theorem enqueue_malformed_tile_throws :
    (enqueue sampleCollaborators false ⟨"tile:", "tile: width=0", "", [], true, "", 0⟩).run.run [] =
      (.error "Invalid tile descriptor.", []) := by
  rfl

/-! ## The hash gate -/

/-- Where every queued tile has its hash cached, the hash-gated search of the `tile:` branch
finds what the ungated search by descriptor equality finds: the first queued tile whose
descriptor equals the new one. -/
theorem tile_hash_gate_exact (newTile : TileDesc) (q : List Message)
    (cached : ∀ cur ∈ q, TileCached c cur) :
    findIf (tileMatches c newTile (c.equalityHash newTile)) q = findIf (tileEquals c newTile) q ∧
    findIf (tileEquals c newTile) q = .ok (q.findIdx? (isTileOf c newTile)) := by
  have ungated := findIf_eq_findIdx? _ _ q fun cur mem =>
    tileEquals_of_tileCached (cached cur mem) newTile
  refine ⟨?_, ungated⟩
  rw [ungated]
  exact findIf_eq_findIdx? _ _ q fun cur mem => tileMatches_of_tileCached (cached cur mem) newTile

theorem tile_hash_collision_skipped :
    findIf (tileMatches sampleCollaborators 1 0)
      [⟨"tile:", "tile: part=0", "", [], true, "", 0⟩, ⟨"tile:", "tile: part=1", "", [], true, "", 0⟩] =
      .ok (some 1) := by
  obtain ⟨gated, ungated⟩ := tile_hash_gate_exact sampleCollaborators 1
    [⟨"tile:", "tile: part=0", "", [], true, "", 0⟩, ⟨"tile:", "tile: part=1", "", [], true, "", 0⟩]
    (by simp [TileCached, sampleCollaborators])
  exact (gated.trans ungated).trans rfl

end SenderQueue

import SenderQueue.Message

/-! # `SenderQueue::deduplicate`

The coalescing step `enqueue` runs before it appends. The first token of the incoming
message picks a branch; a branch may parse the incoming message (which throws on a bad
payload), then erases the first queued message its `find_if` predicate accepts. The
predicates of the `tile:` and `invalidateviewcursor:` branches parse queued messages again and
may throw as well.

`deduplicate_run` is the one fact about it that later modules use: whatever the branch,
`deduplicate` first settles a plan (the item it will hand back and the predicate it erases
by), then erases the predicate's first match, and an exception from either phase leaves the
deque as it was, since the only write is the last step.
-/

namespace SenderQueue

variable {ε TileDesc : Type} [DecidableEq TileDesc] (c : Collaborators ε TileDesc)

/-- `pos = std::find_if(begin, end, pred); if (pos != _queue.end()) _queue.erase(pos);` -/
def eraseFirst (pred : Message → Except ε Bool) : QueueM ε Unit := do
  let pos ← findIf pred (← get)
  if let some pos := pos then modify (·.eraseIdx pos)

/-- The `find_if` predicate of the `tile:` branch: a queued tile whose cached hash is the new
tile's and whose own descriptor, parsed again, equals the new one. -/
def tileMatches (newTile : TileDesc) (newTilePosHash : UInt32) (cur : Message) : Except ε Bool :=
  if !cur.firstTokenMatches "tile:" then pure false
  else if newTilePosHash ≠ cur.hash then pure false
  else do
    let curTile ← c.parseTile cur.firstLine
    return newTile == curTile

/-- The `find_if` predicate of the `invalidateviewcursor:` branch: the same command, and a
payload that, parsed again, names the same view. -/
def viewCursorMatches (command viewId : String) (cur : Message) : Except ε Bool :=
  if cur.firstTokenMatches command then do
    let curViewId ← c.viewId cur.jsonString
    return viewId == curViewId
  else pure false

/-- `deduplicate(item)`. It hands back whether to enqueue (always `true`) and the item as
`setHash` left it. -/
def deduplicate (item : Message) : QueueM ε (Bool × Message) := do
  let command := item.firstToken
  if command = "tile:" then
    let newTile ← c.parseTile item.firstLine
    let newTilePosHash := c.equalityHash newTile
    let item := item.setHash newTilePosHash
    eraseFirst (tileMatches c newTile newTilePosHash)
    return (true, item)
  else if command = "invalidatecursor:" ∨ command = "setpart:" then
    eraseFirst fun cur => pure (cur.firstTokenMatches command)
    return (true, item)
  else if command = "progress:" then
    if item.contains setvalueTag then
      eraseFirst fun cur => pure (cur.firstTokenMatches command && cur.contains setvalueTag)
    return (true, item)
  else if command = "invalidateviewcursor:" then
    let viewId ← c.viewId item.jsonString
    eraseFirst (viewCursorMatches c command viewId)
    return (true, item)
  return (true, item)

/-- What `deduplicate` settles before it reads the deque: the item it hands back and the
predicate whose first match it erases (one that never holds where nothing is erased), or the
exception of parsing the incoming message. -/
def dedupPlan (item : Message) : Except ε (Message × (Message → Except ε Bool)) :=
  let command := item.firstToken
  if command = "tile:" then do
    let newTile ← c.parseTile item.firstLine
    return (item.setHash (c.equalityHash newTile), tileMatches c newTile (c.equalityHash newTile))
  else if command = "invalidatecursor:" ∨ command = "setpart:" then
    pure (item, fun cur => pure (cur.firstTokenMatches command))
  else if command = "progress:" then
    if item.contains setvalueTag then
      pure (item, fun cur => pure (cur.firstTokenMatches command && cur.contains setvalueTag))
    else pure (item, fun _ => pure false)
  else if command = "invalidateviewcursor:" then do
    let viewId ← c.viewId item.jsonString
    return (item, viewCursorMatches c command viewId)
  else pure (item, fun _ => pure false)

variable {c}

theorem eraseFirst_run (pred : Message → Except ε Bool) (q : List Message) :
    (eraseFirst pred).run.run q =
      match findIf pred q with
      | .error e => (.error e, q)
      | .ok pos => (.ok (), eraseAt q pos) := by
  simp only [eraseFirst, run_get_bind, liftM, run_lift_bind]
  rcases findIf pred q with e | _ | pos <;> rfl

theorem eraseFirst_bind_run (pred : Message → Except ε Bool) (r : Bool × Message)
    (q : List Message) :
    (eraseFirst pred >>= fun _ => (pure r : QueueM ε _)).run.run q =
      match findIf pred q with
      | .error e => (.error e, q)
      | .ok pos => (.ok r, eraseAt q pos) := by
  rw [run_bind, eraseFirst_run]
  rcases findIf pred q with e | pos <;> rfl

/-- `deduplicate` is its plan followed by one erase; an exception from either phase keeps the
deque unchanged. -/
theorem deduplicate_run (item : Message) (q : List Message) :
    (deduplicate c item).run.run q =
      match dedupPlan c item with
      | .error e => (.error e, q)
      | .ok (pushed, pred) =>
        match findIf pred q with
        | .error e => (.error e, q)
        | .ok pos => (.ok (true, pushed), eraseAt q pos) := by
  have keep : (pure (true, item) : QueueM ε _).run.run q =
      match findIf (fun _ => (pure false : Except ε Bool)) q with
      | .error e => (.error e, q) | .ok pos => (.ok (true, item), eraseAt q pos) := by
    rw [findIf_false]
    rfl
  unfold deduplicate dedupPlan
  dsimp only
  by_cases tile : item.firstToken = "tile:"
  · rw [if_pos tile, if_pos tile]
    simp only [liftM, run_lift_bind, eraseFirst_bind_run]
    rcases c.parseTile item.firstLine with e | newTile <;> rfl
  rw [if_neg tile, if_neg tile]
  by_cases cursor : item.firstToken = "invalidatecursor:" ∨ item.firstToken = "setpart:"
  · rw [if_pos cursor, if_pos cursor]
    exact eraseFirst_bind_run _ _ q
  rw [if_neg cursor, if_neg cursor]
  by_cases progress : item.firstToken = "progress:"
  · rw [if_pos progress, if_pos progress]
    by_cases tagged : item.contains setvalueTag
    · rw [if_pos tagged, if_pos tagged]
      exact eraseFirst_bind_run _ _ q
    · rw [if_neg tagged, if_neg tagged]
      exact keep
  rw [if_neg progress, if_neg progress]
  by_cases view : item.firstToken = "invalidateviewcursor:"
  · rw [if_pos view, if_pos view]
    simp only [liftM, run_lift_bind, eraseFirst_bind_run]
    rcases c.viewId item.jsonString with e | viewId <;> rfl
  rw [if_neg view, if_neg view]
  exact keep

/-- Everything a plan can be: one case per branch of `deduplicate`, with the branch's guard,
the item handed back and the predicate erased by. -/
theorem dedupPlan_cases {item pushed : Message} {pred : Message → Except ε Bool}
    (plan : dedupPlan c item = .ok (pushed, pred)) :
    (item.firstToken = "tile:" ∧ ∃ newTile, c.parseTile item.firstLine = .ok newTile ∧
      pushed = item.setHash (c.equalityHash newTile) ∧
      pred = tileMatches c newTile (c.equalityHash newTile)) ∨
    ((item.firstToken = "invalidatecursor:" ∨ item.firstToken = "setpart:") ∧ pushed = item ∧
      pred = fun cur => pure (cur.firstTokenMatches item.firstToken)) ∨
    (item.firstToken = "progress:" ∧ item.contains setvalueTag ∧ pushed = item ∧
      pred = fun cur => pure (cur.firstTokenMatches "progress:" && cur.contains setvalueTag)) ∨
    (item.firstToken = "invalidateviewcursor:" ∧ ∃ viewId, c.viewId item.jsonString = .ok viewId ∧
      pushed = item ∧ pred = viewCursorMatches c "invalidateviewcursor:" viewId) ∨
    (item.firstToken ≠ "tile:" ∧ item.firstToken ≠ "invalidatecursor:" ∧
      item.firstToken ≠ "setpart:" ∧ item.firstToken ≠ "invalidateviewcursor:" ∧
      (item.firstToken = "progress:" → item.contains setvalueTag = false) ∧
      pushed = item ∧ pred = fun _ => pure false) := by
  unfold dedupPlan at plan
  dsimp only at plan
  by_cases tile : item.firstToken = "tile:"
  · rw [if_pos tile] at plan
    rcases parse : c.parseTile item.firstLine with e | newTile <;> rw [parse] at plan <;>
      cases plan
    exact .inl ⟨tile, newTile, rfl, rfl, rfl⟩
  rw [if_neg tile] at plan
  by_cases cursor : item.firstToken = "invalidatecursor:" ∨ item.firstToken = "setpart:"
  · rw [if_pos cursor] at plan
    cases plan
    exact .inr (.inl ⟨cursor, rfl, rfl⟩)
  rw [if_neg cursor] at plan
  obtain ⟨cursor, setPart⟩ := not_or.mp cursor
  by_cases progress : item.firstToken = "progress:"
  · rw [if_pos progress] at plan
    by_cases tagged : item.contains setvalueTag
    · rw [if_pos tagged] at plan
      cases plan
      exact .inr (.inr (.inl ⟨progress, tagged, rfl, by rw [progress]⟩))
    · rw [if_neg tagged] at plan
      cases plan
      exact .inr (.inr (.inr (.inr ⟨tile, cursor, setPart, by simp [progress],
        fun _ => by simpa using tagged, rfl, rfl⟩)))
  rw [if_neg progress] at plan
  by_cases view : item.firstToken = "invalidateviewcursor:"
  · rw [if_pos view] at plan
    rcases viewId : c.viewId item.jsonString with e | viewId <;> rw [viewId] at plan <;>
      cases plan
    exact .inr (.inr (.inr (.inl ⟨view, _, rfl, rfl, by rw [view]⟩)))
  rw [if_neg view] at plan
  cases plan
  exact .inr (.inr (.inr (.inr ⟨tile, cursor, setPart, view, fun p => absurd p progress,
    rfl, rfl⟩)))

end SenderQueue

import SenderQueue.Deduplicate

/-! # `enqueue`, `dequeue` and runs of a session's queue

The public operations of `SenderQueue`, and the system they make up: one deque, the
process-wide termination flag, and any interleaving of `enqueue` calls from producers with
`dequeue` calls from the session's writer. Each call holds `_mutex` for all it does to the
deque, so a run is a sequence of whole calls. `dequeue` reads the flag before it locks; a
flag raised in between changes nothing the deque can show, since the call then pops as if it
had run whole before the flag went up.
-/

namespace SenderQueue

variable {ε TileDesc : Type} [DecidableEq TileDesc] (c : Collaborators ε TileDesc)

/-- The condition of `enqueue`'s `if`, `!SigUtil::getTerminationFlag() && deduplicate(item)`,
evaluated left to right: the item to push back, if any, as `deduplicate` left it. -/
def itemToPush (terminationFlag : Bool) (item : Message) : QueueM ε (Option Message) := do
  if terminationFlag then return none
  let (keep, item) ← deduplicate c item
  return if keep then some item else none

/-- `enqueue(item)`; it returns the deque's size. -/
def enqueue (terminationFlag : Bool) (item : Message) : QueueM ε Nat := do
  if let some item ← itemToPush c terminationFlag item then
    modify (·.concat item)
  return (← get).length

/-- `dequeue(item)`: the front item, if the flag is down and the deque is not empty. -/
def dequeue (terminationFlag : Bool) : StateM (List Message) (Option Message) := do
  if terminationFlag then return none
  match ← get with
  | [] => return none
  | item :: rest =>
    set rest
    return some item

def size (queue : List Message) : Nat := queue.length

/-- A session's queue together with the termination flag its calls read. -/
structure Session where
  terminationFlag : Bool
  queue : List Message

def Session.empty : Session := ⟨false, []⟩

/-- The calls a run is made of: producers' `enqueue`, the writer's `dequeue`, and
`SigUtil::setTerminationFlag` from the process. -/
inductive Call
  | enqueue (item : Message)
  | dequeue
  | setTerminationFlag

/-- One whole call. An exception out of `enqueue` goes to its caller; the deque keeps what
the call had done to it. -/
def Session.step (s : Session) : Call → Session
  | .enqueue item => { s with queue := ((enqueue c s.terminationFlag item).run.run s.queue).2 }
  | .dequeue => { s with queue := ((dequeue s.terminationFlag).run s.queue).2 }
  | .setTerminationFlag => { s with terminationFlag := true }

def Session.run (s : Session) (calls : List Call) : Session := calls.foldl (Session.step c) s

variable {c}

theorem itemToPush_run (terminationFlag : Bool) (item : Message) (q : List Message) :
    (itemToPush c terminationFlag item).run.run q =
      if terminationFlag then (.ok none, q)
      else match dedupPlan c item with
        | .error e => (.error e, q)
        | .ok (pushed, pred) =>
          match findIf pred q with
          | .error e => (.error e, q)
          | .ok pos => (.ok (some pushed), eraseAt q pos) := by
  cases terminationFlag
  · simp only [itemToPush, Bool.false_eq_true, if_false, pure_bind, run_bind, deduplicate_run]
    rcases dedupPlan c item with e | ⟨pushed, pred⟩
    · rfl
    · dsimp only
      rcases findIf pred q with e | pos <;> rfl
  · rfl

theorem enqueue_run (terminationFlag : Bool) (item : Message) (q : List Message) :
    (enqueue c terminationFlag item).run.run q =
      match (itemToPush c terminationFlag item).run.run q with
      | (.error e, q') => (.error e, q')
      | (.ok none, q') => (.ok q'.length, q')
      | (.ok (some pushed), q') => (.ok (q' ++ [pushed]).length, q' ++ [pushed]) := by
  simp only [enqueue, run_bind]
  rcases (itemToPush c terminationFlag item).run.run q with ⟨_ | _ | pushed, q'⟩
  · rfl
  · rfl
  · simp only [run_modify_bind, run_get_bind, run_pure, List.concat_eq_append]

theorem dequeue_run (terminationFlag : Bool) (q : List Message) :
    (dequeue terminationFlag).run q = if terminationFlag then (none, q) else (q.head?, q.tail) := by
  cases terminationFlag <;> cases q <;> rfl

@[simp] theorem Session.run_nil (s : Session) : s.run c [] = s := rfl

theorem Session.run_append (s : Session) (calls calls' : List Call) :
    s.run c (calls ++ calls') = (s.run c calls).run c calls' := List.foldl_append _ _ _ _

@[simp] theorem Session.step_terminationFlag (s : Session) (call : Call) :
    (s.step c call).terminationFlag = (s.terminationFlag || call matches .setTerminationFlag) := by
  cases call <;> simp [Session.step]

/-- Once the termination flag is up a call changes nothing: `enqueue` neither coalesces nor
appends, and `dequeue` neither returns nor removes. -/
theorem Session.step_of_terminated {s : Session} (raised : s.terminationFlag = true) (call : Call) :
    s.step c call = s := by
  obtain ⟨flag, queue⟩ := s
  subst raised
  cases call <;> simp [Session.step, enqueue_run, itemToPush_run, dequeue_run]

/-- Collaborators for the worked cases: a descriptor is a part number, `equalityHash` sends
every descriptor to one value so that any two tiles collide, and a non-empty payload is the
view id it names. -/
def sampleCollaborators : Collaborators String Nat where
  parseTile line :=
    if line = "tile: part=0" then .ok 0
    else if line = "tile: part=1" then .ok 1
    else .error "Invalid tile descriptor."
  equalityHash _ := 0
  viewId json := if json = "" then .error "Cannot parse JSON" else .ok json

variable (c) in
/-- In every state, not only reachable ones, an exception out of `enqueue` leaves the deque
exactly as it was: every write comes after the last call that can throw. -/
theorem enqueue_exception_keeps_queue (terminationFlag : Bool) (item : Message)
    (q : List Message) :
    match (enqueue c terminationFlag item).run.run q with
    | (.error _, q') => q' = q
    | (.ok _, _) => True := by
  rw [enqueue_run, itemToPush_run]
  cases terminationFlag
  · simp only [Bool.false_eq_true, if_false]
    rcases dedupPlan c item with e | ⟨pushed, pred⟩
    · rfl
    · dsimp only
      rcases findIf pred q with e | pos <;> trivial
  · trivial

end SenderQueue

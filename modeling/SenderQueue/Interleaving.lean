import Mathlib.Data.List.Dedup
import SenderQueue.Delivery

/-! # Threads

`enqueue` takes `_mutex` before it reads the termination flag, so each of its calls is one
atomic step. `dequeue` reads the flag first, without the lock, and only then takes `_mutex`
to pop: between the two, producers may enqueue and the flag may be raised. This module
models the session at that grain, with any number of consumer threads, and relates it to the
runs of whole calls of `Queue`:

* every interleaving hands out what one run of whole calls hands out, the run
  `Machine.linearize` reads off it, in which the raise of the flag takes effect once no
  consumer is between its check and the lock; so the coalescing law of `Coalescing` and the
  guarantees of `Delivery` hold of every interleaving, and on every deque it reaches `enqueue`
  removes each queued message the new item supersedes;
* once the flag is up the deque still loses its front items, each delivered, at most one for
  each consumer parked between its check and the lock, and nothing more is accepted.

The sizes `enqueue` returns are the one output the linearization does not keep: an `enqueue`
that finds the flag up returns a size that may count an item a parked consumer is about to pop.
-/

namespace SenderQueue

/-- The locked section of `dequeue`: pop the front item, if there is one. -/
def dequeueLocked : StateM (List Message) (Option Message) := do
  match ← get with
  | [] => return none
  | item :: rest =>
    set rest
    return some item

theorem dequeueLocked_run (q : List Message) : dequeueLocked.run q = (q.head?, q.tail) := by
  cases q <;> rfl

/-- `dequeue` is its flag check followed by its locked section. -/
theorem dequeue_eq_dequeueLocked (terminationFlag : Bool) :
    dequeue terminationFlag = if terminationFlag then pure none else dequeueLocked := by
  cases terminationFlag <;> rfl

/-- The session as its threads share it: the deque and the flag, and the consumer threads that
have passed `dequeue`'s flag check and wait for `_mutex`. -/
structure Machine where
  session : Session
  waiting : List Nat

def Machine.init : Machine := ⟨Session.empty, []⟩

/-- One atomic step of one thread. -/
inductive Event
  /-- A producer's whole `enqueue(item)`, all of it under `_mutex`. -/
  | enqueue (item : Message)
  /-- The next step of consumer `thread`, which calls `dequeue` over and over: the flag check,
  or, once past it, the locked section. -/
  | consumer (thread : Nat)
  /-- `SigUtil::setTerminationFlag`, from any thread. -/
  | setTerminationFlag

def Event.consumerThread : Event → Option Nat
  | .consumer thread => some thread
  | _ => none

variable {ε TileDesc : Type} [DecidableEq TileDesc] (c : Collaborators ε TileDesc)

def Machine.step (m : Machine) : Event → Machine
  | .enqueue item => { m with session := m.session.step c (.enqueue item) }
  | .consumer thread =>
    if thread ∈ m.waiting then
      { session := { m.session with queue := (dequeueLocked.run m.session.queue).2 },
        waiting := m.waiting.erase thread }
    else if m.session.terminationFlag then m
    else { m with waiting := thread :: m.waiting }
  | .setTerminationFlag => { m with session := { m.session with terminationFlag := true } }

/-- What one step adds to the transcript: the item an `enqueue` appends, the item a locked
section pops. -/
def Transcript.recordEvent (m : Machine) (t : Transcript) : Event → Transcript
  | .enqueue item => t.record c m.session (.enqueue item)
  | .consumer thread =>
    if thread ∈ m.waiting then
      match (dequeueLocked.run m.session.queue).1 with
      | some item => { t with delivered := t.delivered ++ [item] }
      | none => t
    else t
  | .setTerminationFlag => t

/-- An interleaving from `m`, with its transcript. -/
def Machine.runRecorded (m : Machine) (t : Transcript) (evs : List Event) : Machine × Transcript :=
  evs.foldl (fun run ev => (run.1.step c ev, run.2.recordEvent c run.1 ev)) (m, t)

/-! ## Linearization -/

/-- The whole calls a step stands for, where it takes effect: an `enqueue` that ran with the
flag down, the `dequeue` whose locked section this is, and the raise of the flag, put off until
no consumer is between its check and the lock. -/
def Event.calls (m : Machine) : Event → List Call
  | .enqueue item => if m.session.terminationFlag then [] else [.enqueue item]
  | .consumer thread =>
    if thread ∈ m.waiting then
      .dequeue :: if m.session.terminationFlag ∧ m.waiting.erase thread = [] then
        [.setTerminationFlag] else []
    else []
  | .setTerminationFlag => if m.waiting = [] then [.setTerminationFlag] else []

/-- The run of whole calls an interleaving from `m` stands for. -/
def Machine.linearize (m : Machine) : List Event → List Call
  | [] => []
  | ev :: evs => ev.calls m ++ (m.step c ev).linearize evs

/-- Where the run of whole calls stands: the flag counts as raised once no consumer is parked. -/
def Machine.linearized (m : Machine) : Session :=
  ⟨m.session.terminationFlag && m.waiting.isEmpty, m.session.queue⟩

variable {c}

theorem Machine.runRecorded_cons (m : Machine) (t : Transcript) (ev : Event) (evs : List Event) :
    m.runRecorded c t (ev :: evs) = (m.step c ev).runRecorded c (t.recordEvent c m ev) evs := rfl

theorem Machine.step_parked {m : Machine} {thread : Nat} (parked : thread ∈ m.waiting) :
    m.step c (.consumer thread) = ⟨{ m.session with queue := m.session.queue.tail }, m.waiting.erase thread⟩ := by
  rw [Machine.step, if_pos parked, dequeueLocked_run]

theorem Transcript.recordEvent_parked {m : Machine} {thread : Nat} (parked : thread ∈ m.waiting)
    (t : Transcript) :
    t.recordEvent c m (.consumer thread) =
      { t with delivered := t.delivered ++ m.session.queue.head?.toList } := by
  rw [Transcript.recordEvent, if_pos parked, dequeueLocked_run]
  cases m.session.queue <;> simp

/-- One step: the calls it stands for take the linearized session where the step takes the
machine, and hand out what the step hands out. -/
theorem Machine.step_linearized (m : Machine) (t : Transcript) (ev : Event) :
    m.linearized.runRecorded c t (ev.calls m) = ((m.step c ev).linearized, t.recordEvent c m ev) := by
  obtain ⟨⟨flag, q⟩, waiting⟩ := m
  cases ev with
  | enqueue item =>
    cases flag
    · rfl
    · simp only [Event.calls, if_true, Session.runRecorded_nil, Machine.step,
        Session.step_of_terminated (s := ⟨true, q⟩) rfl, Transcript.recordEvent,
        Transcript.record_of_terminated (s := ⟨true, q⟩) rfl]
  | consumer thread =>
    by_cases parked : thread ∈ waiting
    · have busy : waiting.isEmpty = false := by
        cases waiting with
        | nil => exact absurd parked (List.not_mem_nil _)
        | cons _ _ => rfl
      rw [Event.calls, if_pos parked, Machine.step_parked parked, Transcript.recordEvent_parked parked]
      simp only [Machine.linearized, busy, Bool.and_false, Session.runRecorded_cons,
        Session.step_dequeue, Transcript.record_dequeue]
      by_cases last : flag = true ∧ waiting.erase thread = []
      · obtain ⟨rfl, last⟩ := last
        rw [if_pos ⟨rfl, last⟩, last]
        rfl
      · have still : (flag && (waiting.erase thread).isEmpty) = false := by
          cases flag <;> simp_all [List.isEmpty_iff]
        rw [if_neg last, still]
        rfl
    · cases flag <;> simp [Event.calls, Machine.step, Transcript.recordEvent, Machine.linearized, parked]
  | setTerminationFlag =>
    cases waiting <;> simp [Event.calls, Session.runRecorded, Machine.step, Session.step,
      Transcript.recordEvent, Transcript.record, Machine.linearized]

theorem Machine.runRecorded_linearized (m : Machine) (t : Transcript) (evs : List Event) :
    m.linearized.runRecorded c t (m.linearize c evs) =
      ((m.runRecorded c t evs).1.linearized, (m.runRecorded c t evs).2) := by
  induction evs generalizing m t with
  | nil => rfl
  | cons ev evs ih =>
    rw [Machine.linearize, Session.runRecorded_append, Machine.step_linearized]
    exact ih (m.step c ev) (t.recordEvent c m ev)

/-- What every run of whole calls from the empty queue satisfies, every interleaving satisfies. -/
theorem Machine.interleaving_of_runs (P : Session → Transcript → Prop)
    (runs : ∀ calls, P (Session.empty.runRecorded c Transcript.empty calls).1
      (Session.empty.runRecorded c Transcript.empty calls).2) (evs : List Event) :
    P (Machine.init.runRecorded c Transcript.empty evs).1.linearized
      (Machine.init.runRecorded c Transcript.empty evs).2 := by
  have holds := runs (Machine.init.linearize c evs)
  rw [show Session.empty = Machine.init.linearized from rfl, Machine.runRecorded_linearized] at holds
  exact holds

/-- `enqueue` from a machine whose linearized session is fresh: with the flag up it changes
nothing; with the flag down it changes nothing when the incoming message's own parse fails,
and otherwise accepts the message in its `queuedForm`, erasing every queued message that
supersedes. -/
theorem Machine.enqueue_cases {m : Machine} {t : Transcript} (inv : Fresh c m.linearized t)
    (item : Message) :
    (m.session.terminationFlag = true ∧ (t.recordEvent c m (.enqueue item)).accepted = t.accepted ∧
      (m.step c (.enqueue item)).session.queue = m.session.queue) ∨
    (m.session.terminationFlag = false ∧ queuedForm c item = none ∧
      (t.recordEvent c m (.enqueue item)).accepted = t.accepted ∧
      (m.step c (.enqueue item)).session.queue = m.session.queue) ∨
    ∃ pushed, m.session.terminationFlag = false ∧ queuedForm c item = some pushed ∧
      (t.recordEvent c m (.enqueue item)).accepted = t.accepted ++ [pushed] ∧
      (m.step c (.enqueue item)).session.queue =
        m.session.queue.filter (fun old => !supersedes c pushed old) ++ [pushed] := by
  obtain ⟨⟨flag, q⟩, waiting⟩ := m
  cases flag
  · rcases inv.enqueue_cases item with ⟨failed, accepted, queue⟩ | ⟨pushed, queued, accepted, queue⟩
    · exact .inr (.inl ⟨rfl, failed, accepted, queue⟩)
    · exact .inr (.inr ⟨pushed, rfl, queued, accepted, queue⟩)
  · left
    simp only [Machine.step, Transcript.recordEvent, Session.step_of_terminated (s := ⟨true, q⟩) rfl,
      Transcript.record_of_terminated (s := ⟨true, q⟩) rfl, and_self]

/-! ## After the flag is raised -/

/-- A step with the flag up changes nothing, or is the locked section of a parked consumer:
it pops the front, which is delivered, and the consumer stops waiting. -/
theorem Machine.step_of_terminated {m : Machine} (raised : m.session.terminationFlag = true)
    (t : Transcript) (ev : Event) :
    (m.step c ev = m ∧ t.recordEvent c m ev = t) ∨
    ∃ thread ∈ m.waiting,
      m.step c ev = ⟨⟨true, m.session.queue.tail⟩, m.waiting.erase thread⟩ ∧
      t.recordEvent c m ev = { t with delivered := t.delivered ++ m.session.queue.head?.toList } := by
  obtain ⟨⟨flag, q⟩, waiting⟩ := m
  subst raised
  cases ev with
  | enqueue item =>
    left
    simp only [Machine.step, Session.step_of_terminated (s := ⟨true, q⟩) rfl, Transcript.recordEvent,
      Transcript.record_of_terminated (s := ⟨true, q⟩) rfl, and_self]
  | consumer thread =>
    by_cases parked : thread ∈ waiting
    · exact .inr ⟨thread, parked, Machine.step_parked parked, Transcript.recordEvent_parked parked t⟩
    · left
      simp [Machine.step, Transcript.recordEvent, parked]
  | setTerminationFlag => exact .inl ⟨rfl, rfl⟩

/-- From any state with the flag up: nothing more is accepted, and what is delivered is popped
off the front of the deque, at most one item per parked consumer. -/
theorem Machine.runRecorded_of_terminated :
    ∀ (evs : List Event) {m : Machine} (t : Transcript), m.session.terminationFlag = true →
      (m.runRecorded c t evs).2.accepted = t.accepted ∧
      ∃ popped, (m.runRecorded c t evs).2.delivered = t.delivered ++ popped ∧
        m.session.queue = popped ++ (m.runRecorded c t evs).1.session.queue ∧
        popped.length ≤ m.waiting.length
  | [], _, _, _ => ⟨rfl, [], by simp [Machine.runRecorded], by simp [Machine.runRecorded], Nat.zero_le _⟩
  | ev :: evs, m, t, raised => by
    rw [Machine.runRecorded_cons]
    rcases Machine.step_of_terminated (c := c) raised t ev with
      ⟨same, recorded⟩ | ⟨thread, parked, popped, recorded⟩
    · rw [same, recorded]
      exact Machine.runRecorded_of_terminated evs t raised
    · rw [popped, recorded]
      obtain ⟨accepted, rest, delivered, queue, bound⟩ :=
        Machine.runRecorded_of_terminated evs (m := ⟨⟨true, m.session.queue.tail⟩, m.waiting.erase thread⟩)
          { t with delivered := t.delivered ++ m.session.queue.head?.toList } rfl
      have fewer := List.length_erase_of_mem parked
      have atMostOne : m.session.queue.head?.toList.length ≤ 1 := by
        cases m.session.queue <;> simp
      refine ⟨accepted, m.session.queue.head?.toList ++ rest, by rw [delivered, List.append_assoc], ?_, ?_⟩
      · rw [List.append_assoc, ← queue]
        cases m.session.queue <;> rfl
      · have : 0 < m.waiting.length := List.length_pos_of_mem parked
        simp only [List.length_append] at bound ⊢
        omega

/-- The flag, once raised, stays up. -/
theorem Machine.runRecorded_terminationFlag :
    ∀ (evs : List Event) (m : Machine) (t : Transcript),
      Event.setTerminationFlag ∈ evs ∨ m.session.terminationFlag = true →
        (m.runRecorded c t evs).1.session.terminationFlag = true
  | [], _, _, raised => by simpa using raised
  | ev :: evs, m, t, raised => by
    rw [Machine.runRecorded_cons]
    refine Machine.runRecorded_terminationFlag evs _ _ ?_
    rcases raised with here | up
    · rcases List.mem_cons.mp here with rfl | later
      · exact .inr rfl
      · exact .inl later
    · right
      rcases Machine.step_of_terminated (c := c) up t ev with ⟨same, -⟩ | ⟨_, _, popped, -⟩
      · rw [same]
        exact up
      · rw [popped]

/-- A step parks the consumer that passes its flag check and releases the one that takes the
lock; no other consumer moves. -/
theorem Machine.step_waiting {m : Machine} (distinct : m.waiting.Nodup) (ev : Event) :
    (m.step c ev).waiting.Nodup ∧
      ∀ thread ∈ (m.step c ev).waiting, thread ∈ m.waiting ∨ ev = Event.consumer thread := by
  cases ev with
  | consumer thread =>
    by_cases parked : thread ∈ m.waiting
    · rw [Machine.step_parked parked]
      exact ⟨distinct.erase thread, fun _ mem => .inl (List.mem_of_mem_erase mem)⟩
    · by_cases raised : m.session.terminationFlag = true
      · simp only [Machine.step, parked, raised, if_true, if_false]
        exact ⟨distinct, fun _ mem => .inl mem⟩
      · simp only [Machine.step, parked, raised, if_false, Bool.false_eq_true]
        refine ⟨List.nodup_cons.mpr ⟨parked, distinct⟩, fun other mem => ?_⟩
        rcases List.mem_cons.mp mem with rfl | mem
        · exact .inr rfl
        · exact .inl mem
  | enqueue item => exact ⟨distinct, fun _ mem => .inl mem⟩
  | setTerminationFlag => exact ⟨distinct, fun _ mem => .inl mem⟩

/-- The parked consumers are distinct, and each is a consumer thread that has run. -/
theorem Machine.runRecorded_waiting :
    ∀ (evs : List Event) (m : Machine) (t : Transcript), m.waiting.Nodup →
      (m.runRecorded c t evs).1.waiting.Nodup ∧
        ∀ thread ∈ (m.runRecorded c t evs).1.waiting, thread ∈ m.waiting ∨ Event.consumer thread ∈ evs
  | [], _, _, distinct => ⟨distinct, fun _ mem => .inl mem⟩
  | ev :: evs, m, t, distinct => by
    rw [Machine.runRecorded_cons]
    have stepped := Machine.step_waiting (c := c) distinct ev
    obtain ⟨distinct', ran⟩ := Machine.runRecorded_waiting evs (m.step c ev) (t.recordEvent c m ev)
      stepped.1
    refine ⟨distinct', fun thread mem => ?_⟩
    rcases ran thread mem with earlier | later
    · rcases stepped.2 thread earlier with before | rfl
      · exact .inl before
      · exact .inr (List.mem_cons_self _ _)
    · exact .inr (List.mem_cons_of_mem _ later)

/-! ## Every interleaving -/

variable (c)

/-- Every interleaving of producers' `enqueue` calls, consumers' flag checks and locked sections,
and the raise of the flag, hands out what the run of whole calls read off it hands out: the same
deque, the same items accepted and the same items delivered. -/
theorem interleaving_linearizes (evs : List Event) :
    Session.empty.runRecorded c Transcript.empty (Machine.init.linearize c evs) =
      ((Machine.init.runRecorded c Transcript.empty evs).1.linearized,
        (Machine.init.runRecorded c Transcript.empty evs).2) :=
  Machine.runRecorded_linearized Machine.init Transcript.empty evs

/-- In every interleaving the items delivered, followed by the items still queued, are a
subsequence of the items accepted. -/
theorem interleaving_delivers_in_order (evs : List Event) :
    let run := Machine.init.runRecorded c Transcript.empty evs
    (run.2.delivered ++ run.1.session.queue).Sublist run.2.accepted :=
  Machine.interleaving_of_runs DeliveredInOrder (Session.runRecorded_deliveredInOrder c) evs

/-- In every interleaving each accepted message without a dedup key is delivered or still
queued, in the order accepted. -/
theorem interleaving_keeps_keyless (evs : List Event) :
    let run := Machine.init.runRecorded c Transcript.empty evs
    (run.2.delivered ++ run.1.session.queue).filter (fun m => (dedupKey c m).isNone) =
      run.2.accepted.filter (fun m => (dedupKey c m).isNone) :=
  Machine.interleaving_of_runs (KeylessKept c) (Session.runRecorded_keylessKept c) evs

/-- In every interleaving, for every key, the newest accepted message with that key is the last
one with that key among those delivered and those still queued. -/
theorem interleaving_keeps_newest (evs : List Event) (key : DedupKey TileDesc) :
    let run := Machine.init.runRecorded c Transcript.empty evs
    ((run.2.delivered ++ run.1.session.queue).filter (fun m => dedupKey c m == some key)).getLast? =
      (run.2.accepted.filter (fun m => dedupKey c m == some key)).getLast? :=
  Machine.interleaving_of_runs (NewestKept c) (Session.runRecorded_newestKept c) evs key

/-- In every interleaving each queued message with a dedup key is the newest accepted message
with that key; `dequeue` hands out the front of the deque, so it never hands out a value that a
message already accepted has superseded. -/
theorem interleaving_queues_only_newest (evs : List Event) :
    let run := Machine.init.runRecorded c Transcript.empty evs
    ∀ m ∈ run.1.session.queue, ∀ key, dedupKey c m = some key →
      (run.2.accepted.filter (fun m' => dedupKey c m' == some key)).getLast? = some m :=
  (Machine.interleaving_of_runs (Fresh c) (Session.runRecorded_fresh c) evs).newest

/-- In every interleaving an `enqueue` with the flag up changes nothing; with the flag down it
changes nothing when the incoming message's own parse fails, and otherwise accepts the message
in its `queuedForm`, erasing every queued message that supersedes and appending the message:
erasing the first match of `find_if` is as good as erasing them all. -/
theorem interleaving_enqueue_replaces_superseded (evs : List Event) (item : Message) :
    let run := Machine.init.runRecorded c Transcript.empty evs
    (run.1.session.terminationFlag = true ∧
      (run.2.recordEvent c run.1 (.enqueue item)).accepted = run.2.accepted ∧
      (run.1.step c (.enqueue item)).session.queue = run.1.session.queue) ∨
    (run.1.session.terminationFlag = false ∧ queuedForm c item = none ∧
      (run.2.recordEvent c run.1 (.enqueue item)).accepted = run.2.accepted ∧
      (run.1.step c (.enqueue item)).session.queue = run.1.session.queue) ∨
    ∃ pushed, run.1.session.terminationFlag = false ∧ queuedForm c item = some pushed ∧
      (run.2.recordEvent c run.1 (.enqueue item)).accepted = run.2.accepted ++ [pushed] ∧
      (run.1.step c (.enqueue item)).session.queue =
        run.1.session.queue.filter (fun old => !supersedes c pushed old) ++ [pushed] :=
  Machine.enqueue_cases (Machine.interleaving_of_runs (Fresh c) (Session.runRecorded_fresh c) evs) item

/-- The coalescing law holds of every interleaving: the deque the threads share is the pending
part of the history of the run of whole calls the interleaving stands for. -/
theorem interleaving_coalesces (evs : List Event) :
    (Machine.init.runRecorded c Transcript.empty evs).1.session.queue =
      ((traced c (Machine.init.linearize c evs)).2.pending c).map Prod.snd := by
  have linearized : Session.empty.run c (Machine.init.linearize c evs) =
      (Machine.init.runRecorded c Transcript.empty evs).1.linearized := by
    rw [← Session.runRecorded_fst]
    exact congrArg Prod.fst (Machine.runRecorded_linearized Machine.init Transcript.empty evs)
  calc (Machine.init.runRecorded c Transcript.empty evs).1.session.queue
      = (Session.empty.run c (Machine.init.linearize c evs)).queue := by rw [linearized]; rfl
    _ = ((traced c (Machine.init.linearize c evs)).2.pending c).map Prod.snd := by
      rw [← traced_fst]
      exact (traced_coalesced _).queue

/-- After the flag is raised nothing more is accepted, and the items still delivered are taken
off the front of the deque, at most one for each consumer thread that had run: a consumer
whose flag check came before the raise still pops once. -/
theorem delivered_after_termination (before after : List Event)
    (raised : Event.setTerminationFlag ∈ before) :
    let mid := Machine.init.runRecorded c Transcript.empty before
    let fin := mid.1.runRecorded c mid.2 after
    fin.2.accepted = mid.2.accepted ∧
    ∃ popped, fin.2.delivered = mid.2.delivered ++ popped ∧
      mid.1.session.queue = popped ++ fin.1.session.queue ∧
      popped.length ≤ (before.filterMap Event.consumerThread).dedup.length := by
  intro mid fin
  have up := Machine.runRecorded_terminationFlag (c := c) before Machine.init Transcript.empty
    (.inl raised)
  obtain ⟨accepted, popped, delivered, queue, bound⟩ :=
    Machine.runRecorded_of_terminated (c := c) after mid.2 up
  obtain ⟨distinct, ran⟩ := Machine.runRecorded_waiting (c := c) before Machine.init
    Transcript.empty List.nodup_nil
  have parked : mid.1.waiting.length ≤ (before.filterMap Event.consumerThread).dedup.length := by
    refine (List.subperm_of_subset distinct fun thread mem => ?_).length_le
    rcases ran thread mem with nothing | ran
    · cases nothing
    · exact List.mem_dedup.mpr (List.mem_filterMap.mpr ⟨_, ran, rfl⟩)
  exact ⟨accepted, popped, delivered, queue, bound.trans parked⟩

/-- A consumer that passed its flag check before the raise still pops the one queued status
item, and nothing else is handed out. -/
theorem delivered_after_termination_example :
    let before : List Event :=
      [.enqueue ⟨"status:", "status: ok", "", [], false, "1", 0⟩, .consumer 0, .setTerminationFlag]
    let mid := Machine.init.runRecorded sampleCollaborators Transcript.empty before
    let fin := mid.1.runRecorded sampleCollaborators mid.2 [.consumer 0]
    Event.setTerminationFlag ∈ before ∧ fin.2.accepted = mid.2.accepted ∧
      fin.2.delivered = mid.2.delivered ++ [⟨"status:", "status: ok", "", [], false, "1", 0⟩] ∧
      mid.1.session.queue = [⟨"status:", "status: ok", "", [], false, "1", 0⟩] ++ fin.1.session.queue ∧
      [(⟨"status:", "status: ok", "", [], false, "1", 0⟩ : Message)].length ≤
        (before.filterMap Event.consumerThread).dedup.length := by
  intro before mid fin
  obtain ⟨accepted, popped, delivered, queue, bound⟩ :=
    delivered_after_termination sampleCollaborators before [.consumer 0] (by simp [before])
  have queued : mid.1.session.queue = [⟨"status:", "status: ok", "", [], false, "1", 0⟩] := rfl
  have drained : fin.1.session.queue = [] := rfl
  have single : mid.1.session.queue = popped ++ fin.1.session.queue := queue
  rw [queued, drained, List.append_nil] at single
  subst single
  exact ⟨by simp [before], accepted, delivered, queue, bound⟩

end SenderQueue

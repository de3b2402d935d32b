import Mathlib.Data.List.Infix

/-! # Messages and the locked deque

`SenderQueue<Item>` (wsd/SenderQueue.hpp) keeps `std::shared_ptr<Message>` items in a
`std::deque` behind one mutex. This module fixes what the queue reads of a message, the
collaborators it calls outside its header, and the monad its locked sections run in: the
deque is the state, and a C++ exception keeps whatever the code had done to the deque
before it was thrown.
-/

namespace SenderQueue

/-- The accessors of `Message` (common/Message.hpp) that the queue calls. `data` is the
payload byte vector, `hash` the tile-position hash behind `getHash` and `setHash`. -/
structure Message where
  firstToken : String
  firstLine : String
  jsonString : String
  data : List UInt8
  isBinary : Bool
  id : String
  hash : UInt32
deriving DecidableEq, Repr

namespace Message

/-- `firstTokenMatches(target)`: the first token is `target`. -/
def firstTokenMatches (m : Message) (target : String) : Bool := m.firstToken == target

/-- `contains(str)`: the bytes of `str` occur in the payload. -/
def contains (m : Message) (pattern : List UInt8) : Bool := decide (pattern <:+: m.data)

def size (m : Message) : Nat := m.data.length

def setHash (m : Message) (hash : UInt32) : Message := { m with hash := hash }

@[simp] theorem firstTokenMatches_eq (m : Message) (target : String) :
    m.firstTokenMatches target = (m.firstToken == target) := rfl

@[simp] theorem setHash_firstToken (m : Message) (h : UInt32) :
    (m.setHash h).firstToken = m.firstToken := rfl

@[simp] theorem setHash_firstLine (m : Message) (h : UInt32) :
    (m.setHash h).firstLine = m.firstLine := rfl

@[simp] theorem setHash_jsonString (m : Message) (h : UInt32) :
    (m.setHash h).jsonString = m.jsonString := rfl

@[simp] theorem setHash_data (m : Message) (h : UInt32) : (m.setHash h).data = m.data := rfl

@[simp] theorem setHash_hash (m : Message) (h : UInt32) : (m.setHash h).hash = h := rfl

@[simp] theorem setHash_setHash (m : Message) (h h' : UInt32) :
    (m.setHash h).setHash h' = m.setHash h' := rfl

@[simp] theorem setHash_self (m : Message) : m.setHash m.hash = m := rfl

@[simp] theorem setHash_contains (m : Message) (h : UInt32) (pattern : List UInt8) :
    (m.setHash h).contains pattern = m.contains pattern := rfl

end Message

/-- The marker of `deduplicate`'s `progress:` branch, `"id":"setvalue"`, as payload bytes. -/
def setvalueTag : List UInt8 := "\"id\":\"setvalue\"".toUTF8.data.toList

/-- What the queue calls outside its header. `parseTile` is `TileDesc::parse` and
`equalityHash` is `TileDesc::equalityHash` (TileDesc.hpp); `viewId` is Poco's
`Parser::parse`, `extract<Object::Ptr>` and `get("viewId").toString()` in a row. A parse
that fails throws an `ε`. -/
structure Collaborators (ε TileDesc : Type) where
  parseTile : String → Except ε TileDesc
  equalityHash : TileDesc → UInt32
  viewId : String → Except ε String

section Except

variable {ε α β : Type}

@[simp] theorem except_pure (a : α) : (pure a : Except ε α) = .ok a := rfl

@[simp] theorem except_ok_bind (a : α) (f : α → Except ε β) : (Except.ok a >>= f) = f a := rfl

@[simp] theorem except_error_bind (e : ε) (f : α → Except ε β) :
    (Except.error e >>= f) = .error e := rfl

@[simp] theorem except_toOption_ok (a : α) : (Except.ok a : Except ε α).toOption = some a := rfl

@[simp] theorem except_map_ok (f : α → β) (a : α) : f <$> (Except.ok a : Except ε α) = .ok (f a) :=
  rfl

end Except

/-- Code run while holding `_mutex`: it reads and writes the deque and may throw. -/
abbrev QueueM (ε : Type) := ExceptT ε (StateM (List Message))

section Run

variable {ε α β : Type}

@[simp] theorem run_pure (a : α) (q : List Message) :
    (pure a : QueueM ε α).run.run q = (.ok a, q) := rfl

@[simp] theorem run_get_bind (f : List Message → QueueM ε α) (q : List Message) :
    ((get : QueueM ε _) >>= f).run.run q = (f q).run.run q := rfl

@[simp] theorem run_modify (g : List Message → List Message) (q : List Message) :
    (modify g : QueueM ε Unit).run.run q = (.ok (), g q) := rfl

@[simp] theorem run_modify_bind (g : List Message → List Message) (f : Unit → QueueM ε α)
    (q : List Message) :
    ((modify g : QueueM ε Unit) >>= f).run.run q = (f ()).run.run (g q) := rfl

@[simp] theorem run_lift_bind (x : Except ε α) (f : α → QueueM ε β) (q : List Message) :
    ((monadLift x : QueueM ε α) >>= f).run.run q =
      match x with
      | .error e => (.error e, q)
      | .ok a => (f a).run.run q := by
  cases x <;> rfl

theorem run_bind (x : QueueM ε α) (f : α → QueueM ε β) (q : List Message) :
    (x >>= f).run.run q =
      match x.run.run q with
      | (.error e, q') => (.error e, q')
      | (.ok a, q') => (f a).run.run q' := by
  simp only [ExceptT.run_bind, StateT.run_bind]
  rcases x.run.run q with ⟨_ | _, _⟩ <;> rfl

end Run

/-- `std::find_if` over the deque with a predicate that may throw: the position of the first
item the predicate holds of, `none` for `end()`. -/
def findIf {ε : Type} (pred : Message → Except ε Bool) : List Message → Except ε (Option Nat)
  | [] => pure none
  | cur :: rest => do
    if ← pred cur then return some 0
    return (← findIf pred rest).map (· + 1)

/-- The deque after `if (pos != _queue.end()) _queue.erase(pos)`. -/
def eraseAt (q : List Message) : Option Nat → List Message
  | none => q
  | some pos => q.eraseIdx pos

section FindIf

variable {ε : Type}

/-- On a deque where the predicate never throws, `find_if` is `List.findIdx?`. -/
theorem findIf_eq_findIdx? (pred : Message → Except ε Bool) (p : Message → Bool) :
    ∀ q : List Message, (∀ cur ∈ q, pred cur = .ok (p cur)) → findIf pred q = .ok (q.findIdx? p)
  | [], _ => rfl
  | cur :: rest, total => by
    have tail := findIf_eq_findIdx? pred p rest fun x mem => total x (.tail _ mem)
    simp only [findIf, total cur (.head _), List.findIdx?_cons]
    cases p cur <;> simp [tail]

/-- A predicate that throws on no item lets `find_if` return. -/
theorem findIf_ok_of_total (pred : Message → Except ε Bool) (q : List Message)
    (total : ∀ cur ∈ q, ∃ b, pred cur = .ok b) : ∃ pos, findIf pred q = .ok pos := by
  refine ⟨_, findIf_eq_findIdx? pred (fun cur => match pred cur with
    | .ok b => b
    | .error _ => false) q fun cur mem => ?_⟩
  obtain ⟨b, returns⟩ := total cur mem
  simp [returns]

/-- A predicate that never holds finds `end()`. -/
theorem findIf_false :
    ∀ q : List Message, findIf (fun _ => (pure false : Except ε Bool)) q = .ok none
  | [] => rfl
  | _ :: rest => by simp only [findIf, findIf_false rest]; rfl

theorem eraseAt_cons_succ (m : Message) (q : List Message) (pos : Option Nat) :
    eraseAt (m :: q) (pos.map (· + 1)) = m :: eraseAt q pos := by
  cases pos <;> rfl

/-- Erasing the first match is erasing every match, when no two items match. -/
theorem eraseAt_findIdx? (p : Message → Bool) :
    ∀ q : List Message, q.Pairwise (fun a b => ¬ (p a ∧ p b)) →
      eraseAt q (q.findIdx? p) = q.filter (fun m => !p m)
  | [], _ => rfl
  | m :: rest, unique => by
    rw [List.pairwise_cons] at unique
    by_cases first : p m
    · have others : ∀ b ∈ rest, !p b := fun b mem => by simpa using fun h => unique.1 b mem ⟨first, h⟩
      simp [first, eraseAt, List.filter_eq_self.mpr others]
    · simp only [List.findIdx?_cons, first, List.findIdx?_succ, List.filter_cons,
        Bool.false_eq_true, if_false, Bool.not_false, if_true]
      rw [eraseAt_cons_succ, eraseAt_findIdx? p rest unique.2]

end FindIf

end SenderQueue

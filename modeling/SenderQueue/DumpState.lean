import SenderQueue.Message

/-! # `SenderQueue::dumpState`

The diagnostic report: a count line, one line per queued item with runs of equal text items
folded into a `<repeats n times>` line, and the total byte size. The loop is modelled as the
code runs it, a fold over the deque with the locals `repeats`, `lastStr` and `totalSize`;
`sectionFrom` is the same loop as a recursion over the items left, which the proofs use.
-/

namespace SenderQueue

/-- A line `dumpState` writes to the stream. -/
inductive ReportLine
  | queueItems (count : Nat)
  | item (binary : Bool) (id : String) (abbreviation : String)
  | repeats (count : Nat)
  | queueSize (bytes : Nat)
deriving DecidableEq, Repr

/-- The text the stream receives for a line. -/
def ReportLine.render : ReportLine → String
  | .queueItems count => "\t\tqueue items: " ++ toString count ++ "\n"
  | .item binary id abbreviation =>
    "\t\t\ttype: " ++ (if binary then "binary" else "text") ++ ": " ++ id ++ " - " ++
      abbreviation ++ "\n"
  | .repeats count => "\t\t\t<repeats " ++ toString count ++ " times>\n"
  | .queueSize bytes => "\t\tqueue size: " ++ toString bytes ++ " bytes\n"

/-- The locals of `dumpState`'s loop, and the lines written so far. -/
structure DumpLoop where
  repeats : Nat
  lastStr : String
  totalSize : Nat
  written : List ReportLine

variable (getAbbreviatedMessage : List UInt8 → String)

/-- One turn of the loop over `_queue`. -/
def dumpItem (st : DumpLoop) (item : Message) : DumpLoop :=
  let itemStr := getAbbreviatedMessage item.data
  let st :=
    if st.lastStr = itemStr ∧ item.isBinary = false then { st with repeats := st.repeats + 1 }
    else if st.repeats > 0 then
      { st with written := st.written ++ [.repeats st.repeats], repeats := 0 }
    else st
  let st :=
    if st.repeats = 0 then { st with written := st.written ++ [.item item.isBinary item.id itemStr] }
    else st
  { st with lastStr := itemStr, totalSize := st.totalSize + item.size }

/-- The `<repeats>` line written after the loop for a run still open. -/
def flushRepeats (st : DumpLoop) : DumpLoop :=
  if st.repeats > 0 then { st with written := st.written ++ [.repeats st.repeats] } else st

/-- `dumpState(os)`: the lines written to `os`. -/
def dumpState (queue : List Message) : List ReportLine :=
  let st := flushRepeats (queue.foldl (dumpItem getAbbreviatedMessage)
    ⟨0, "", 0, [.queueItems queue.length]⟩)
  st.written ++ [.queueSize st.totalSize]

/-- The lines the loop and the flush after it write, from the locals `repeats` and `lastStr`,
over the items left. -/
def sectionFrom : Nat → String → List Message → List ReportLine
  | repeats, _, [] => if repeats > 0 then [.repeats repeats] else []
  | repeats, lastStr, item :: rest =>
    let itemStr := getAbbreviatedMessage item.data
    if lastStr = itemStr ∧ item.isBinary = false then sectionFrom (repeats + 1) itemStr rest
    else (if repeats > 0 then [.repeats repeats] else []) ++
      .item item.isBinary item.id itemStr :: sectionFrom 0 itemStr rest

variable {getAbbreviatedMessage}

theorem foldl_dumpItem_written :
    ∀ (queue : List Message) (st : DumpLoop),
      (flushRepeats (queue.foldl (dumpItem getAbbreviatedMessage) st)).written =
        st.written ++ sectionFrom getAbbreviatedMessage st.repeats st.lastStr queue
  | [], st => by
    by_cases running : st.repeats > 0 <;> simp [flushRepeats, sectionFrom, running]
  | item :: rest, st => by
    rw [List.foldl_cons, foldl_dumpItem_written rest]
    by_cases fold : st.lastStr = getAbbreviatedMessage item.data ∧ item.isBinary = false
    · simp [dumpItem, sectionFrom, fold]
    · by_cases running : st.repeats > 0
      · simp [dumpItem, sectionFrom, fold, running]
      · simp [dumpItem, sectionFrom, fold, running, Nat.eq_zero_of_not_pos running]

@[simp] theorem dumpItem_totalSize (st : DumpLoop) (item : Message) :
    (dumpItem getAbbreviatedMessage st item).totalSize = st.totalSize + item.size := by
  simp only [dumpItem, apply_ite DumpLoop.totalSize, ite_self]

@[simp] theorem flushRepeats_totalSize (st : DumpLoop) :
    (flushRepeats st).totalSize = st.totalSize := by
  unfold flushRepeats
  split <;> rfl

theorem foldl_dumpItem_totalSize :
    ∀ (queue : List Message) (st : DumpLoop),
      (queue.foldl (dumpItem getAbbreviatedMessage) st).totalSize =
        queue.foldl (fun total item => total + item.size) st.totalSize
  | [], st => rfl
  | item :: rest, st => by
    rw [List.foldl_cons, foldl_dumpItem_totalSize rest, dumpItem_totalSize, List.foldl_cons]

/-- The report is the count line, the loop's lines, and the size line. -/
theorem dumpState_eq (queue : List Message) :
    dumpState getAbbreviatedMessage queue =
      .queueItems queue.length :: sectionFrom getAbbreviatedMessage 0 "" queue ++
        [.queueSize (queue.foldl (fun total item => total + item.size) 0)] := by
  simp only [dumpState, foldl_dumpItem_written, flushRepeats_totalSize, foldl_dumpItem_totalSize,
    List.singleton_append, List.cons_append, List.nil_append]

/-! ## Reading the report back -/

/-- The lines between the `queue items` line and the `queue size` line. -/
def itemSection (report : List ReportLine) : List ReportLine := (report.drop 1).dropLast

/-- Undo the folding: a `<repeats n times>` line becomes `n` copies of the item line written
just before it, and nothing when no item line came before it. -/
def expandRepeats : Option ReportLine → List ReportLine → List ReportLine
  | _, [] => []
  | _, .item binary id abbreviation :: rest =>
    .item binary id abbreviation :: expandRepeats (some (.item binary id abbreviation)) rest
  | some previous, .repeats count :: rest =>
    List.replicate count previous ++ expandRepeats (some previous) rest
  | none, .repeats _ :: rest => expandRepeats none rest
  | previous, _ :: rest => expandRepeats previous rest

/-- The type and abbreviated content an item line shows. -/
def ReportLine.shown : ReportLine → Option (Bool × String)
  | .item binary _ abbreviation => some (binary, abbreviation)
  | _ => none

/-- The number of queued items a report line stands for: one for an item line, `n` for a
`<repeats n times>` line. -/
def ReportLine.itemCount : ReportLine → Nat
  | .item _ _ _ => 1
  | .repeats count => count
  | _ => 0

def itemsCounted : List ReportLine → Nat
  | [] => 0
  | line :: rest => line.itemCount + itemsCounted rest

variable (getAbbreviatedMessage) in
/-- No item of `queue` is folded into a line of another type: no text item comes right after
a binary item with the same abbreviation, given the type and abbreviation of the item before
`queue`. The loop starts as if after a binary item abbreviated `""`. -/
def FoldsAfter : Bool → String → List Message → Prop
  | _, _, [] => True
  | binary, lastStr, item :: rest =>
    ¬ (binary = true ∧ item.isBinary = false ∧ getAbbreviatedMessage item.data = lastStr) ∧
      FoldsAfter item.isBinary (getAbbreviatedMessage item.data) rest

/-- The loop's lines, read back after the item line that opened the current run. -/
theorem expandRepeats_sectionFrom :
    ∀ (queue : List Message) (binary : Bool) (id lastStr : String) (repeats : Nat),
      (0 < repeats → binary = false) → FoldsAfter getAbbreviatedMessage binary lastStr queue →
      (expandRepeats (some (.item binary id lastStr))
          (sectionFrom getAbbreviatedMessage repeats lastStr queue)).map ReportLine.shown =
        List.replicate repeats (some (binary, lastStr)) ++
          queue.map fun m => some (m.isBinary, getAbbreviatedMessage m.data)
  | [], binary, id, lastStr, repeats, _, _ => by
    by_cases running : 0 < repeats
    · simp [sectionFrom, expandRepeats, running, ReportLine.shown]
    · simp [sectionFrom, expandRepeats, Nat.eq_zero_of_not_pos running]
  | item :: rest, binary, id, lastStr, repeats, textRun, folds => by
    obtain ⟨sameType, foldsRest⟩ := folds
    by_cases fold : lastStr = getAbbreviatedMessage item.data ∧ item.isBinary = false
    · obtain ⟨same, text⟩ := fold
      have text' : binary = false := by
        cases binary
        · rfl
        · exact absurd ⟨rfl, text, same.symm⟩ sameType
      rw [sectionFrom, if_pos ⟨same, text⟩, ← same,
        expandRepeats_sectionFrom rest binary id lastStr (repeats + 1) (fun _ => text')
          (by rw [text', ← text, same]; exact foldsRest)]
      simp [List.replicate_succ', text, text', same]
    · rw [sectionFrom, if_neg fold]
      have next := expandRepeats_sectionFrom rest item.isBinary item.id
        (getAbbreviatedMessage item.data) 0 (fun h => absurd h (Nat.lt_irrefl 0)) foldsRest
      by_cases running : 0 < repeats <;>
        simp_all [expandRepeats, ReportLine.shown]

theorem itemSection_dumpState (queue : List Message) :
    itemSection (dumpState getAbbreviatedMessage queue) =
      sectionFrom getAbbreviatedMessage 0 "" queue := by
  simp [itemSection, dumpState_eq]

@[simp] theorem itemsCounted_append (lines lines' : List ReportLine) :
    itemsCounted (lines ++ lines') = itemsCounted lines + itemsCounted lines' := by
  induction lines with
  | nil => simp [itemsCounted]
  | cons line lines ih => rw [List.cons_append, itemsCounted, itemsCounted, ih, Nat.add_assoc]

/-- Every item the loop passes over is either given a line or counted in a run. -/
theorem itemsCounted_sectionFrom :
    ∀ (queue : List Message) (repeats : Nat) (lastStr : String),
      itemsCounted (sectionFrom getAbbreviatedMessage repeats lastStr queue) = repeats + queue.length
  | [], repeats, _ => by cases repeats <;> simp [sectionFrom, itemsCounted, ReportLine.itemCount]
  | item :: rest, repeats, lastStr => by
    rw [sectionFrom]
    split
    · rw [itemsCounted_sectionFrom rest, List.length_cons]
      omega
    · cases repeats <;> simp [itemsCounted, ReportLine.itemCount, itemsCounted_sectionFrom rest] <;>
        omega

/-- The loop starts with `lastStr` empty: a first item that is text and abbreviates to `""`
counts as a repeat of no line, so the section opens with `<repeats 1 times>`. -/
theorem sectionFrom_empty_text_first (item : Message) (rest : List Message)
    (text : item.isBinary = false) (empty : getAbbreviatedMessage item.data = "") :
    sectionFrom getAbbreviatedMessage 0 "" (item :: rest) =
      sectionFrom getAbbreviatedMessage 1 "" rest := by
  rw [sectionFrom, if_pos ⟨empty.symm, text⟩, empty]

/-- A text item after a binary item with the same payload is folded into the binary item's
line: read back, the report shows two binary items. -/
theorem dumpState_folds_text_into_binary (data : List UInt8) :
    let queue : List Message :=
      [⟨"tile:", "tile: part=0", "", data, true, "1", 0⟩, ⟨"status:", "status:", "", data, false, "2", 0⟩]
    itemSection (dumpState getAbbreviatedMessage queue) =
        [.item true "1" (getAbbreviatedMessage data), .repeats 1] ∧
      (expandRepeats none (itemSection (dumpState getAbbreviatedMessage queue))).map
          ReportLine.shown ≠ queue.map fun m => some (m.isBinary, getAbbreviatedMessage m.data) := by
  intro queue
  have folded : itemSection (dumpState getAbbreviatedMessage queue) =
      [.item true "1" (getAbbreviatedMessage data), .repeats 1] := by
    simp only [queue, itemSection_dumpState, sectionFrom, Bool.true_eq_false, and_false, if_false,
      and_self, if_true]
    rfl
  refine ⟨folded, ?_⟩
  rw [folded]
  simp [queue, expandRepeats, ReportLine.shown]

/-- Where no text item follows a binary item with the same abbreviation, and the first item
is not a text item abbreviated to `""`, the report is a faithful run-length encoding: read
back, it shows every queued item once, in order, with its type and abbreviated content. -/
theorem dumpState_expands_to_queue (queue : List Message)
    (folds : FoldsAfter getAbbreviatedMessage true "" queue) :
    (expandRepeats none (itemSection (dumpState getAbbreviatedMessage queue))).map
        ReportLine.shown = queue.map fun m => some (m.isBinary, getAbbreviatedMessage m.data) := by
  rw [itemSection_dumpState]
  cases queue with
  | nil => rfl
  | cons item rest =>
    obtain ⟨first, foldsRest⟩ := folds
    have opens : ¬ ("" = getAbbreviatedMessage item.data ∧ item.isBinary = false) :=
      fun ⟨empty, text⟩ => first ⟨rfl, text, empty.symm⟩
    rw [sectionFrom, if_neg opens]
    simp only [gt_iff_lt, Nat.lt_irrefl, if_false, List.nil_append, expandRepeats, List.map_cons,
      ReportLine.shown]
    rw [expandRepeats_sectionFrom rest item.isBinary item.id _ 0
      (fun h => absurd h (Nat.lt_irrefl 0)) foldsRest]
    simp

theorem dumpState_equal_text_items_expand :
    (expandRepeats none (itemSection (dumpState (fun _ => "status: ok")
        [⟨"status:", "status:", "", [], false, "1", 0⟩, ⟨"status:", "status:", "", [], false, "2", 0⟩]))).map
      ReportLine.shown = [some (false, "status: ok"), some (false, "status: ok")] :=
  dumpState_expands_to_queue
    [⟨"status:", "status:", "", [], false, "1", 0⟩, ⟨"status:", "status:", "", [], false, "2", 0⟩]
    (by simp [FoldsAfter])

/-- The report accounts for every queued item, whatever folding the loop did: the count line
gives the deque's length, the lines between it and the size line stand for that many items,
and the size line gives the total payload bytes. -/
theorem dumpState_accounts_for_every_item (queue : List Message) :
    (dumpState getAbbreviatedMessage queue).head? = some (.queueItems queue.length) ∧
    itemsCounted (itemSection (dumpState getAbbreviatedMessage queue)) = queue.length ∧
    (dumpState getAbbreviatedMessage queue).getLast? =
      some (.queueSize (queue.foldl (fun total item => total + item.size) 0)) := by
  rw [itemSection_dumpState, itemsCounted_sectionFrom, Nat.zero_add, dumpState_eq,
    List.getLast?_concat]
  exact ⟨rfl, rfl, rfl⟩

end SenderQueue

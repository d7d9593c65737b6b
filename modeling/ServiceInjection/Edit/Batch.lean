import ServiceInjection.Edit.Basic
import ServiceInjection.Text.Units

/-!
# Edit.Batch

Edits that belong together. A batch is put into the order in which the edits can
be applied one after the other without moving each other's ranges: from the end
of the text to its start, and at one position the last emitted first.
-/

namespace ServiceInjection

/-- Edits in the order of application. -/
structure Batch where
  edits : List Edit := []
  deriving DecidableEq, Repr

namespace Batch

/-- Leaves out each edit that does the same as an earlier one. -/
def dropRepeated (edits : List Edit) : List Edit :=
  edits.foldl (fun kept edit => if kept.any (·.sameEffect edit) then kept else kept ++ [edit]) []

/-- Edits by start, those with the same start in the given order. -/
def ascending (edits : List Edit) : List Edit :=
  edits.mergeSort (fun a b => a.range.start.le b.range.start)

/-- The batch of edits given in the order of their emission. -/
def assemble (edits : List Edit) : Batch := ⟨(ascending (dropRepeated edits)).reverse⟩

def size (batch : Batch) : Nat := batch.edits.length

def isEmpty (batch : Batch) : Bool := batch.edits.isEmpty

/-- The edits from the start of the text to its end. -/
def inTextOrder (batch : Batch) : List Edit := batch.edits.reverse

/-! ### Applying a batch -/

/-- Drops the carriage returns at the end of a line. -/
def dropReturns (line : List Char) : List Char := (line.reverse.dropWhile (· == '\r')).reverse

/-- The index of the character at a position. A column behind the end of the line
means its end, a line behind the last one means the end of the text. -/
def offsetOf (column : Nat) : Nat → List Char → Nat
  | 0, text =>
    (Text.upToColumn column (dropReturns (text.takeWhile (· != '\n')))).length
  | line + 1, text =>
    let passed := (text.takeWhile (· != '\n')).length
    match text.dropWhile (· != '\n') with
    | [] => passed
    | _ :: rest => passed + 1 + offsetOf column line rest

/-- Applies one edit. A range that ends before its start is empty. -/
def applyEdit (text : List Char) (edit : Edit) : List Char :=
  let start := offsetOf edit.range.start.column edit.range.start.line text
  let stop := max start (offsetOf edit.range.stop.column edit.range.stop.line text)
  text.take start ++ edit.text.toList ++ text.drop stop

/-- Applies the edits of a batch one after the other. -/
def apply (batch : Batch) (text : String) : String :=
  String.ofList (batch.edits.foldl applyEdit text.toList)

end Batch

end ServiceInjection

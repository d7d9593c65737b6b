import ServiceInjection.Call.Detect
import ServiceInjection.Proofs.Source.Checked

/-!
# Call.Checked

Detecting calls by byte offsets. A static call is located by the bytes in front of a match and
in front of what follows it, and the text in front of a class name is cut off to see whether it
is a longer name. As a match stops behind its start, none of these cuts fails, line by line and
so for a whole source (`Checked.detect_eq`).
-/

namespace ServiceInjection.Checked

open Text

theorem start_le_stop {α : Type} {recognize : List Char → Option (α × List Char)} {cs : List Char}
    {m : Match α} (h : m ∈ allMatches recognize cs) : m.start ≤ m.stop := by
  obtain ⟨-, rest, -, hstop⟩ := of_mem_allMatches h
  omega

/-- The characters of a line in front of an index. -/
def front (line : Line) (i : Nat) : Checked (List Char) := cut line.raw 0 (line.byteAt i)

theorem cut_raw (line : Line) {i j : Nat} (h : i ≤ j) :
    cut line.raw (line.byteAt i) (line.byteAt j) = .ok ((line.raw.take j).drop i) := by
  rw [Line.view_raw.cut line h, Line.raw, List.map_drop, List.map_take]
  rfl

theorem front_eq (line : Line) (i : Nat) : front line i = .ok (line.raw.take i) :=
  cut_raw line (Nat.zero_le i)

/-- Whether a match at an index refers to the global class. -/
def isDrupalReference (line : Line) (i : Nat) : Checked Bool := do
  if line.isCodeAt i then
    let before ← front line i
    match before.getLast? with
    | some c => .ok (!(isAlphanumeric c || c == '_' || c == '\\' || c == '$'))
    | none => .ok true
  else .ok false

theorem isDrupalReference_eq (line : Line) (i : Nat) :
    isDrupalReference line i = .ok (StaticCall.isDrupalReference line i) := by
  rw [isDrupalReference, front_eq, ok_bind, StaticCall.isDrupalReference.eq_def]
  cases hcode : line.isCodeAt i with
  | false => rfl
  | true =>
    rw [if_pos rfl, Bool.true_and]
    cases i with
    | zero => rfl
    | succ before =>
      -- Code at an index means that the line reaches to it.
      have hlt : before < line.raw.length := by
        rw [Line.raw, List.length_map]
        cases hcell : (line : List Cell)[before + 1]? with
        | none => simp [Line.isCodeAt, hcell] at hcode
        | some cell => exact Nat.lt_of_succ_lt (List.getElem?_eq_some_iff.mp hcell).1
      have hlast : (line.raw.take (before + 1)).getLast? = line.raw[before]? := by
        rw [List.getLast?_take, if_neg (Nat.succ_ne_zero before), Nat.add_sub_cancel,
          List.getElem?_eq_getElem hlt, Option.some_or]
      simp only [hlast]
      cases line.raw[before]? <;> rfl

/-- The call that a match stands for. -/
def callOf {α : Type} (n : Nat) (line : Line) (m : Match α) (serviceId : String)
    (shape : CallShape) (accessor : Option Accessor) : Checked StaticCall := do
  let before ← front line m.start
  let through ← front line m.stop
  let text ← cut line.raw (line.byteAt m.start) (line.byteAt m.stop)
  .ok { serviceId, line := n, shape, accessor
        startColumn := width16 before
        endColumn := width16 through
        text := String.ofList text }

theorem callOf_eq {α : Type} (n : Nat) (line : Line) {m : Match α} (h : m.start ≤ m.stop)
    (serviceId : String) (shape : CallShape) (accessor : Option Accessor) :
    callOf n line m serviceId shape accessor =
      .ok (StaticCall.ofMatch n line m serviceId shape accessor) := by
  simp only [callOf, front_eq, cut_raw line h, ok_bind]
  rfl

/-- The calls of a line that name their service in quotes. -/
def quotedCalls (recognize : List Char → Option (List Char × List Char)) (shape : CallShape)
    (n : Nat) (line : Line) : Checked (List StaticCall) :=
  (allMatches recognize line.raw).filterMapM fun m => do
    if ← isDrupalReference line m.start then
      let some id := StaticCall.idOfQuoted m.value | .ok none
      let call ← callOf n line m id shape none
      .ok (some call)
    else .ok none

theorem quotedCalls_eq (recognize : List Char → Option (List Char × List Char)) (shape : CallShape)
    (n : Nat) (line : Line) :
    quotedCalls recognize shape n line = .ok (StaticCall.quotedCalls recognize shape n line) := by
  refine filterMapM_ok fun m hm => ?_
  simp only [isDrupalReference_eq, ok_bind, callOf_eq n line (start_le_stop hm)]
  split
  · cases StaticCall.idOfQuoted m.value <;> rfl
  · rfl

/-- The calls of a line through a named helper. -/
def shortcutCalls (n : Nat) (line : Line) : Checked (List StaticCall) :=
  (allMatches StaticCall.shortcutCall line.raw).filterMapM fun m => do
    if ← isDrupalReference line m.start then
      let some entry := Shortcut.find? (String.ofList m.value.1) | .ok none
      let arguments := trim m.value.2
      if arguments.isEmpty != entry.forwardsArguments then
        let accessor := entry.accessor.map (⟨·, String.ofList arguments⟩)
        let call ← callOf n line m entry.serviceId .namedShortcut accessor
        .ok (some call)
      else .ok none
    else .ok none

theorem shortcutCalls_eq (n : Nat) (line : Line) :
    shortcutCalls n line = .ok (StaticCall.shortcutCalls n line) := by
  refine filterMapM_ok fun m hm => ?_
  simp only [isDrupalReference_eq, ok_bind, callOf_eq n line (start_le_stop hm), guard,
    Option.bind_eq_bind]
  split
  · cases Shortcut.find? (String.ofList m.value.1) with
    | none => rfl
    | some entry =>
      simp only [Option.bind_some]
      split <;> rfl
  · rfl

/-- The calls of `get` on the given variables in a line. -/
def variableCalls (containers : List StaticCall.ContainerVariable) (n : Nat) (line : Line) :
    Checked (List StaticCall) :=
  (allMatches containerGet line.raw).filterMapM fun m => do
    if line.isCodeAt m.start && containers.any (·.name == m.value.container) then
      let some id := StaticCall.idOfQuoted m.value.serviceId | .ok none
      let call ← callOf n line m id .containerIndirect none
      .ok (some call)
    else .ok none

theorem variableCalls_eq (containers : List StaticCall.ContainerVariable) (n : Nat) (line : Line) :
    variableCalls containers n line = .ok (StaticCall.variableCalls containers n line) := by
  refine filterMapM_ok fun m hm => ?_
  simp only [callOf_eq n line (start_le_stop hm), ok_bind]
  split
  · cases StaticCall.idOfQuoted m.value.serviceId <;> rfl
  · rfl

/-- The calls of one line, and what is known behind it. -/
def detectLine (state : StaticCall.ScanState) (n : Nat) (line : Line) :
    Checked (List StaticCall × StaticCall.ScanState) := do
  let direct ← quotedCalls StaticCall.directCall .directLocator n line
  let chained ← quotedCalls StaticCall.containerCall .containerIndirect n line
  let shortcuts ← shortcutCalls n line
  let fetched ← variableCalls (StaticCall.assignVariables line state) n line
  .ok (StaticCall.orderCalls (direct ++ chained ++ shortcuts ++ fetched),
    (StaticCall.detectLine state n line).2)

theorem detectLine_eq (state : StaticCall.ScanState) (n : Nat) (line : Line) :
    detectLine state n line = .ok (StaticCall.detectLine state n line) := by
  simp only [detectLine, quotedCalls_eq, shortcutCalls_eq, variableCalls_eq, ok_bind]
  rfl

/-- The calls of successive lines. -/
def detectLines (state : StaticCall.ScanState) (n : Nat) : List Line → Checked (List StaticCall)
  | [] => .ok []
  | line :: rest => do
    let (calls, next) ← detectLine state n line
    let later ← detectLines next (n + 1) rest
    .ok (calls ++ later)

theorem detectLines_eq (state : StaticCall.ScanState) (n : Nat) (lines : List Line) :
    detectLines state n lines = .ok (StaticCall.detectLines state n lines) := by
  induction lines generalizing state n with
  | nil => rfl
  | cons line rest ih =>
    rw [detectLines, detectLine_eq, ok_bind, StaticCall.detectLines]
    simp only [ih, ok_bind]

/-- Every static call of a source. -/
def detect (source : Source) : Checked (List StaticCall) := detectLines {} 0 source.lines

/-- **Finding calls succeeds.** -/
theorem detect_eq (source : Source) : detect source = .ok (StaticCall.detect source) :=
  detectLines_eq {} 0 source.lines

end ServiceInjection.Checked

import ServiceInjection.Proofs.Outline.Sourced
import ServiceInjection.Proofs.Source.Checked

/-!
# Outline.Checked

The outline of a class, read with checked searches. Each reader here does what the reader of
the same part in `ServiceInjection.Outline` does and gets every place from a search by byte
offsets. The places that are computed and not found are those of an opening parenthesis, one
byte in front of the end of a head or of a return statement, and of what follows a closing
one. None of the readers fails, whatever the text (`Checked.outlineOf_eq`,
`Checked.enclosingDeclaration_eq`).
-/

namespace ServiceInjection.Checked

open Text List

variable {source : Source}

/-! ### Methods -/

/-- The layout of the method whose parameters open at a place. -/
def layoutAt (source : Source) (paramsOpen : Spot) : Checked (Option MethodLayout) := do
  let some paramsClose ← matchingClose source paramsOpen '(' ')' | .ok none
  let behind ← next source paramsClose
  let some glyph ← firstOf source behind ['{', ';'] | .ok none
  if glyph.char == '{' then
    let some bodyClose ← matchingClose source glyph.spot '{' '}' | .ok none
    .ok (some ⟨paramsOpen, paramsClose, glyph.spot, bodyClose⟩)
  else .ok none

theorem layoutAt_eq (source : Source) (paramsOpen : Spot) :
    layoutAt source paramsOpen = .ok (MethodLayout.at? source paramsOpen) := by
  rw [layoutAt, MethodLayout.at?, matchingClose_eq _ _ (by decide) (by decide), ok_bind]
  cases hclose : source.matchingClose paramsOpen '(' ')' with
  | none => rfl
  | some paramsClose =>
    have hnext := next_eq (Source.matchingClose_spec hclose).1 (by decide) (by decide)
    simp only [hnext, ok_bind, firstOf_eq source paramsClose.next (show ' ' ∉ ['{', ';'] by decide),
      Option.bind_eq_bind, Option.bind_some]
    cases source.firstOf paramsClose.next ['{', ';'] with
    | none => rfl
    | some glyph =>
      simp only [Option.bind_some, guard]
      split
      · rw [matchingClose_eq _ _ (by decide) (by decide), ok_bind]
        cases source.matchingClose glyph.spot '{' '}' <;> rfl
      · rfl

/-- How the body of a factory builds its object. -/
def factoryShape (source : Source) (containerVar : String) (opening closing : Spot) :
    Checked FactoryShape :=
  let numbers := Source.span opening.line closing.line
  match firstLine numbers fun n => firstWordMatch returnNew (source.code n) with
  | some (n, m) => do
    let paren ← back source ⟨n, m.stop⟩
    let some close ← matchingClose source paren '(' ')' | .ok .unrecognized
    let list := source.entriesBetween paren close
    .ok (.newStatic m.value (list.entries.map (String.ofList ·.text)) list.trailingComma n close.line)
  | none => .ok (.ofBody source containerVar opening closing)

theorem factoryShape_eq (source : Source) (containerVar : String) (opening closing : Spot) :
    factoryShape source containerVar opening closing =
      .ok (.ofBody source containerVar opening closing) := by
  rw [factoryShape, FactoryShape.ofBody]
  cases hfirst : firstLine (Source.span opening.line closing.line)
      fun n => firstWordMatch returnNew (source.code n) with
  | none => rfl
  | some found =>
    obtain ⟨n, m⟩ := found
    obtain ⟨k, hstop, hholds⟩ := firstLine_returnNew hfirst
    have hback := back_eq hholds (by decide) (by decide)
    simp only [hstop, Nat.add_sub_cancel]
    rw [show (⟨n, k + 1⟩ : Spot) = Spot.next ⟨n, k⟩ from rfl, hback, ok_bind,
      matchingClose_eq _ _ (by decide) (by decide), ok_bind]
    cases source.matchingClose ⟨n, k⟩ '(' ')' <;> rfl

/-- The factory with the given layout. -/
def factoryOf (source : Source) (layout : MethodLayout) (doc : Option LineSpan) : Checked Factory := do
  let factory := Factory.ofLayout source layout doc
  let shape ← factoryShape source factory.containerVar layout.bodyOpen layout.bodyClose
  .ok { factory with shape }

theorem factoryOf_eq (source : Source) (layout : MethodLayout) (doc : Option LineSpan) :
    factoryOf source layout doc = .ok (Factory.ofLayout source layout doc) := by
  rw [factoryOf, factoryShape_eq, ok_bind]
  rfl

/-! ### Members -/

/-- What is left of a masked line behind its blanks is the masked text of the cells there. -/
theorem trimStart_masked (cells : Line) :
    trimStart cells.masked = Line.masked (cells.drop (Text.leadingBlanks cells.code).length) := by
  induction cells with
  | nil => rfl
  | cons cell cells ih =>
    have hmasked : Line.masked (cell :: cells) = cell.masked ++ Line.masked cells := rfl
    have hcode : Line.code (cell :: cells) = cell.code :: Line.code cells := rfl
    by_cases hblank : isBlank cell.code = true
    · have hpiece : ∀ c ∈ cell.masked, isBlank c = true := fun c hc => Cell.mem_masked.mp hc ▸ hblank
      rw [hmasked, hcode, Text.leadingBlanks, takeWhile_cons_of_pos hblank, length_cons,
        drop_succ_cons, ← Text.leadingBlanks, ← ih, trimStart, trimStart,
        dropWhile_append_of_pos hpiece]
    · have hne : cell.code ≠ ' ' := fun heq => hblank (heq ▸ by decide)
      have hpiece : cell.masked = [cell.code] :=
        congrArg Cell.masked (Cell.eq_show_of_code rfl hne)
      rw [hmasked, hcode, Text.leadingBlanks, takeWhile_cons_of_neg hblank, hpiece,
        length_nil, drop_zero, hmasked, hpiece, trimStart, singleton_append,
        dropWhile_cons_of_neg hblank]

/-- The place of the first character of a line that is not blank. -/
def textStart (source : Source) (n : Nat) : Checked Spot := do
  let code := (source.line n).masked
  let offset ← sub (width8 code) (width8 (trimStart code))
  spotAt source n offset

theorem textStart_eq (source : Source) (n : Nat) :
    textStart source n = .ok ⟨n, (Text.leadingBlanks (source.code n)).length⟩ := by
  have hlength : (Text.leadingBlanks (source.code n)).length ≤ (source.line n).length := by
    have hle : _ ≤ (source.code n).length := (takeWhile_sublist isBlank).length_le
    rwa [Source.code, Line.code, length_map] at hle
  have hwidth : width8 (source.line n).masked =
      (source.line n).byteAt (Text.leadingBlanks (source.code n)).length +
        width8 (trimStart (source.line n).masked) := by
    rw [trimStart_masked, Line.width8_masked, Line.width8_masked]
    exact ((source.line n).byteAt_add_width8 _).symm
  rw [textStart, hwidth, sub_add_right, ok_bind]
  exact @spotAt_byteAt source ⟨n, _⟩ hlength

/-- The last line of the attribute that a line starts with. -/
def attributeEnd (source : Source) (n : Nat) : Checked (Option Nat) := do
  if startsWith "#[" (trimStart (source.code n)) then
    let start ← textStart source n
    let some close ← matchingClose source start '[' ']' | .ok none
    if isBlankLine ((source.code close.line).drop (close.col + 1)) then .ok (some close.line)
    else .ok none
  else .ok none

theorem attributeEnd_eq (source : Source) (n : Nat) :
    attributeEnd source n = .ok (MemberScan.attributeEnd source n) := by
  rw [attributeEnd, MemberScan.attributeEnd, textStart_eq, ok_bind,
    matchingClose_eq _ _ (by decide) (by decide), ok_bind]
  simp only [guard, Option.bind_eq_bind]
  split
  · cases source.matchingClose ⟨n, (Text.leadingBlanks (source.code n)).length⟩ '[' ']' with
    | none => rfl
    | some close =>
      simp only [Option.bind_some]
      split <;> rfl
  · rfl

/-- The last line of a trait use. -/
def traitUseEnd (source : Source) (n : Nat) : Checked Nat := do
  let some glyph ← firstOf source ⟨n, 0⟩ [';', '{'] | .ok n
  if glyph.char == ';' then .ok glyph.spot.line
  else
    let some close ← matchingClose source glyph.spot '{' '}' | .ok glyph.spot.line
    .ok close.line

theorem traitUseEnd_eq (source : Source) (n : Nat) :
    traitUseEnd source n = .ok (MemberScan.traitUseEnd source n) := by
  rw [traitUseEnd, MemberScan.traitUseEnd, firstOf_eq _ _ (by decide), ok_bind]
  cases source.firstOf ⟨n, 0⟩ [';', '{'] with
  | none => rfl
  | some glyph =>
    simp only [matchingClose_eq source glyph.spot (by decide : '{' ≠ ' ') (by decide : '}' ≠ ' '),
      ok_bind]
    split
    · rfl
    · cases source.matchingClose glyph.spot '{' '}' <;> rfl

/-- Adds a method with a body. Only a factory is searched any further. -/
def addMethod (source : Source) (members : Members) (head : MethodHead) (layout : MethodLayout)
    (doc : Option LineSpan) : Checked Members := do
  let added := MemberScan.addMethod source members head layout doc
  if !sameName head.name "__construct" && (head.name == "create" && head.isStatic) then
    let factory ← factoryOf source layout doc
    .ok { added with factory := members.factory.or (some factory) }
  else .ok added

theorem addMethod_eq (source : Source) (members : Members) (head : MethodHead)
    (layout : MethodLayout) (doc : Option LineSpan) :
    addMethod source members head layout doc =
      .ok (MemberScan.addMethod source members head layout doc) := by
  rw [addMethod, factoryOf_eq, ok_bind]
  split
  · rename_i hfactory
    simp only [Bool.and_eq_true, Bool.not_eq_true'] at hfactory
    simp [MemberScan.addMethod, hfactory]
  · rfl

/-- Reads the method that starts on a line. -/
def readMethod (source : Source) (scan : MemberScan) (n : Nat) (head : MethodHead) :
    Checked MemberScan := do
  let paramsOpen ← back source ⟨n, head.paren + 1⟩
  match ← layoutAt source paramsOpen with
  | some layout =>
    let members ← addMethod source scan.members head layout scan.doc
    .ok { scan with members, doc := none, resume := layout.bodyClose.line + 1 }
  | none =>
    let last ← lineOfFirst source n ';'
    let method : Method := ⟨head.name, ⟨n, last⟩, scan.doc, head.isStatic⟩
    .ok { scan with
      members := { scan.members with methods := scan.members.methods ++ [method] }
      doc := none
      resume := last + 1 }

theorem readMethod_eq (scan : MemberScan) {n : Nat} {head : MethodHead}
    (h : MethodHead.of? (source.code n) = some head) :
    readMethod source scan n head = .ok (MemberScan.readMethod source scan n head) := by
  obtain ⟨front, behind, hcode, hparen⟩ := MethodHead.exists_paren h
  have hholds : source.Holds ⟨n, head.paren⟩ '(' := by
    show (source.code n)[head.paren]? = some '('
    rw [hcode, hparen, getElem?_append_right (Nat.le_refl _), Nat.sub_self]
    rfl
  have hback : back source ⟨n, head.paren + 1⟩ = .ok ⟨n, head.paren⟩ :=
    back_eq hholds (by decide) (by decide)
  rw [readMethod, hback, ok_bind, layoutAt_eq, ok_bind, MemberScan.readMethod]
  cases MethodLayout.at? source ⟨n, head.paren⟩ with
  | none => simp only [lineOfFirst_eq source n (by decide : ' ' ≠ ';'), ok_bind]
  | some layout => simp only [addMethod_eq, ok_bind]

/-- Reads a line with code at the depth of the members. -/
def readMember (source : Source) (scan : MemberScan) (n : Nat) : Checked MemberScan := do
  let code := source.code n
  if isTraitUse code then
    let last ← traitUseEnd source n
    .ok { scan with
      members := { scan.members with traitUses := scan.members.traitUses ++ [⟨n, last⟩] }
      doc := none
      resume := last + 1 }
  else match MethodHead.of? code with
    | some head => readMethod source scan n head
    | none =>
      if isConstant code then
        let last ← lineOfFirst source n ';'
        .ok { scan with doc := none, resume := last + 1 }
      else match propertyDecl code with
        | some decl =>
          let last ← lineOfFirst source n ';'
          .ok { MemberScan.readProperty source scan n decl with resume := last + 1 }
        | none =>
          .ok { scan with doc := none, depth := scan.depth + source.braceBalance n, resume := n + 1 }

theorem readMember_eq (source : Source) (scan : MemberScan) (n : Nat) :
    readMember source scan n = .ok (MemberScan.readMember source scan n) := by
  simp only [readMember, MemberScan.readMember, traitUseEnd_eq, ok_bind,
    lineOfFirst_eq source n (by decide : ' ' ≠ ';')]
  split
  · rfl
  · cases hhead : MethodHead.of? (source.code n) with
    | some head => exact readMethod_eq scan hhead
    | none =>
      simp only
      split
      · rfl
      · cases propertyDecl (source.code n) <;> rfl

/-- Reads a line of a body. Skipped lines and comments are not searched. -/
def memberStep (source : Source) (limit : Nat) (scan : MemberScan) (n : Nat) : Checked MemberScan := do
  if n < scan.resume || 0 < scan.depth || startsWith "/*" (trimStart (source.raw n)) then
    .ok (scan.step source limit n)
  else match ← attributeEnd source n with
    | some last => .ok { scan with resume := last + 1 }
    | none =>
      if isBlankLine (source.code n) then .ok { scan with resume := n + 1 }
      else readMember source scan n

theorem memberStep_eq (source : Source) (limit : Nat) (scan : MemberScan) (n : Nat) :
    memberStep source limit scan n = .ok (MemberScan.step source limit scan n) := by
  rw [memberStep, attributeEnd_eq, ok_bind]
  split
  · rfl
  · rename_i hsearched
    simp only [Bool.or_eq_true, decide_eq_true_eq, not_or] at hsearched
    rw [MemberScan.step, if_neg hsearched.1.1, if_neg hsearched.1.2]
    simp only [if_neg hsearched.2, readMember_eq]
    cases MemberScan.attributeEnd source n with
    | some last => rfl
    | none =>
      simp only
      split <;> rfl

/-- The members of the body between the braces on two different lines. -/
def membersOf (source : Source) (openLine closeLine : Nat) : Checked Members := do
  let scan ← (Source.span (openLine + 1) (closeLine - 1)).foldlM (memberStep source closeLine) {}
  .ok scan.members

theorem membersOf_eq (source : Source) (openLine closeLine : Nat) :
    membersOf source openLine closeLine = .ok (Members.ofBody source openLine closeLine) := by
  rw [membersOf, foldlM_ok fun scan n _ => memberStep_eq source closeLine scan n, ok_bind]
  rfl

/-! ### Imports and declarations -/

/-- Reads a line in front of the first class. -/
def importStep (source : Source) (scan : ImportScan) (n : Nat) : Checked ImportScan := do
  let code := source.code n
  let noted := scan.noteNamespace code n
  if scan.done || n < scan.resume ||
      (scan.depth ≤ scan.importDepth && (namedHead code).isSome) ||
      !(noted.depth ≤ noted.importDepth && ImportScan.startsImport code) then
    .ok (scan.step source n)
  else
    let last ← lineOfFirst source n ';'
    let lines := Source.span n last
    let statement := [' '].intercalate (lines.map fun l => trim (source.raw l))
    .ok { noted with
      imports := ImportScan.add noted.imports (importsOf statement last)
      depth := lines.foldl (fun depth l => depth + source.braceBalance l) noted.depth
      resume := last + 1 }

theorem importStep_eq (source : Source) (scan : ImportScan) (n : Nat) :
    importStep source scan n = .ok (ImportScan.step source scan n) := by
  rw [importStep, lineOfFirst_eq source n (by decide : ' ' ≠ ';'), ok_bind]
  split
  · rfl
  · rename_i hsearched
    simp only [Bool.or_eq_true, not_or, Bool.not_eq_true', Bool.not_eq_false] at hsearched
    obtain ⟨⟨hskipped, hclass⟩, himport⟩ := hsearched
    rw [ImportScan.step, if_neg (by simpa using hskipped)]
    simp only [if_neg hclass, if_pos himport]

/-- What stands in front of the first class. -/
def importsFound (source : Source) : Checked ImportScan :=
  (List.range source.size).foldlM (importStep source) {}

theorem importsFound_eq (source : Source) : importsFound source = .ok (ImportScan.run source) :=
  foldlM_ok (fun scan n _ => importStep_eq source scan n) {}

/-- The line on which a comment starts that ends on a line, the first line at the latest. -/
def commentStart (source : Source) (n : Nat) : Checked Nat :=
  if containsText "/*" (source.raw n) || n == 0 then .ok n
  else match _ : sub n 1 with
    | .ok above => commentStart source above
    | .error fault => .error fault
termination_by n
decreasing_by exact lt_of_sub_one ‹_›

theorem commentStart_eq (source : Source) (n : Nat) :
    commentStart source n = .ok (source.commentStart n) := by
  induction n with
  | zero =>
    rw [commentStart, if_pos (by simp)]
    rfl
  | succ n ih =>
    rw [commentStart, Source.commentStart]
    by_cases hopens : containsText "/*" (source.raw (n + 1)) = true
    · rw [if_pos (by simp [hopens]), if_pos hopens]
    · rw [if_neg (by simpa using hopens), if_neg hopens, ← ih]
      split
      · rename_i above habove
        rw [sub_add_right] at habove
        rw [Except.ok.inj habove]
      · rename_i fault hfault
        rw [sub_add_right] at hfault
        cases hfault

/-- The first line of the comment or attribute that ends on a line. -/
def blockEndingAt (source : Source) (n : Nat) : Checked (Option Nat) := do
  if endsWith "*/" (trim (source.raw n)) then
    let start ← commentStart source n
    .ok (some start)
  else .ok (source.blockEndingAt n)

theorem blockEndingAt_eq (source : Source) (n : Nat) :
    blockEndingAt source n = .ok (source.blockEndingAt n) := by
  rw [blockEndingAt, commentStart_eq, ok_bind, Source.blockEndingAt]
  cases endsWith "*/" (trim (source.raw n)) <;> rfl

/-- The first line of the comments and attributes in front of a line. -/
def leadingLine (source : Source) (n : Nat) : Checked Nat := do
  if 0 < n then
    let before ← sub n 1
    match ← blockEndingAt source before with
    | none => .ok n
    | some start => if start < n then leadingLine source start else .ok n
  else .ok n
termination_by n

theorem leadingLine_eq (source : Source) (n : Nat) :
    leadingLine source n = .ok (source.leadingLine n) := by
  induction n using Nat.strongRecOn with
  | ind n ih =>
    rw [leadingLine, Source.leadingLine.eq_def]
    cases n with
    | zero => rfl
    | succ n =>
      simp only [if_pos (Nat.succ_pos n), sub_add_right, ok_bind, blockEndingAt_eq]
      cases source.blockEndingAt n with
      | none => rfl
      | some start =>
        simp only [Nat.lt_succ_iff]
        split
        · exact ih start (by omega)
        · rfl

/-- The outline of the class declared on a line. -/
def outlineOf (source : Source) (n : Nat) : Checked (Option Outline) := do
  let some head := Head.of? (source.code n) | .ok none
  let some opening ← firstOf source ⟨n, head.stop⟩ ['{', ';'] | .ok none
  if opening.char == '{' then
    let some close ← matchingClose source opening.spot '{' '}' | .ok none
    let header := (source.slice ⟨n, head.stop⟩ opening.spot).masked
    let imports ← importsFound source
    let members ←
      if opening.spot.line == close.line then .ok {}
      else membersOf source opening.spot.line close.line
    let leading ← leadingLine source n
    .ok (some {
      toMembers := members
      imports := imports.imports
      namespaceLine := imports.namespaceLine
      decl := {
        kind := head.kind
        name := head.name
        parent := parentOf header
        interfaces := interfacesOf header
        line := n
        leadingLine := leading
        openBraceLine := opening.spot.line
        closeBraceLine := close.line } })
  else .ok none

/-- **Reading a class succeeds.** -/
theorem outlineOf_eq (source : Source) (n : Nat) :
    outlineOf source n = .ok (Outline.ofDeclaration source n) := by
  rw [outlineOf, Outline.ofDeclaration]
  cases Head.of? (source.code n) with
  | none => rfl
  | some head =>
    simp only [firstOf_eq source ⟨n, head.stop⟩ (show ' ' ∉ ['{', ';'] by decide), ok_bind,
      Option.bind_eq_bind, Option.bind_some]
    cases source.firstOf ⟨n, head.stop⟩ ['{', ';'] with
    | none => rfl
    | some opening =>
      simp only [Option.bind_some, guard]
      split
      · rw [matchingClose_eq _ _ (by decide) (by decide), ok_bind]
        cases source.matchingClose opening.spot '{' '}' with
        | none => rfl
        | some close =>
          simp only [importsFound_eq, membersOf_eq, leadingLine_eq, ok_bind, Option.bind_some]
          split <;> rfl
      · rfl

/-! ### Enclosing declaration -/

/-- Looks for a declaration head on the `count` lines above a line. -/
def headAbove (source : Source) : Nat → Nat → Checked (Option Nat)
  | 0, _ => .ok none
  | count + 1, n => do
    if n == 0 then .ok none
    else
      let above ← sub n 1
      if (Head.of? (source.code above)).isSome then .ok (some above)
      else if endsHeader (source.code above) then .ok none
      else headAbove source count above

theorem headAbove_eq (source : Source) (count n : Nat) :
    headAbove source count n = .ok (source.headAbove count n) := by
  induction count generalizing n with
  | zero => rfl
  | succ count ih =>
    cases n with
    | zero => rfl
    | succ n =>
      rw [headAbove, if_neg (by simp), sub_add_right, ok_bind, Source.headAbove, ih]
      split
      · rfl
      · split <;> rfl

/-- The line of the declaration whose body a brace opens. The code in front of the brace is cut
off its line. -/
def headOfBrace (source : Source) (spot : Spot) : Checked (Option Nat) := do
  let _ ← cut (source.line spot.line).masked 0 (source.byteAt spot)
  let before := (source.code spot.line).take spot.col
  if (Head.of? before).isSome then .ok (some spot.line)
  else if endsHeader before then .ok none
  else headAbove source headerReach spot.line

theorem headOfBrace_eq (source : Source) (spot : Spot) :
    headOfBrace source spot = .ok (source.headOfBrace spot) := by
  have hcut := Line.view_masked.cut (source.line spot.line) (Nat.zero_le spot.col)
  rw [show Line.byteAt (source.line spot.line) 0 = 0 from rfl] at hcut
  rw [headOfBrace, Source.byteAt, hcut, ok_bind, headAbove_eq, Source.headOfBrace]
  simp only
  split
  · rfl
  · split <;> rfl

/-- Walks backwards over code characters to the brace of the innermost class. -/
def enclosingBefore (source : Source) : Nat → List Glyph → Checked (Option Nat)
  | _, [] => .ok none
  | closes, glyph :: rest =>
    if glyph.char == '}' then enclosingBefore source (closes + 1) rest
    else if glyph.char == '{' then
      if 0 < closes then do
        let closes ← sub closes 1
        enclosingBefore source closes rest
      else do
        let some n ← headOfBrace source glyph.spot | enclosingBefore source 0 rest
        .ok (some n)
    else enclosingBefore source closes rest

theorem enclosingBefore_eq (source : Source) (closes : Nat) (glyphs : List Glyph) :
    enclosingBefore source closes glyphs = .ok (source.enclosingBefore closes glyphs) := by
  induction glyphs generalizing closes with
  | nil => rfl
  | cons glyph rest ih =>
    rw [enclosingBefore, Source.enclosingBefore.eq_def]
    simp only
    split
    · exact ih _
    · split
      · cases closes with
        | zero =>
          rw [if_neg (Nat.lt_irrefl 0), headOfBrace_eq, ok_bind]
          cases source.headOfBrace glyph.spot with
          | none => exact ih 0
          | some n => rfl
        | succ closes =>
          rw [if_pos (Nat.succ_pos closes), sub_add_right, ok_bind]
          exact ih closes
      · exact ih _

/-- The line of the declaration that a cursor refers to. -/
def enclosingDeclaration (source : Source) (n : Nat) : Checked (Option Nat) :=
  if source.size ≤ n then .ok none
  else if (Head.of? (source.code n)).isSome then .ok (some n)
  else enclosingBefore source 0 (source.glyphs.takeWhile (·.spot.line ≤ n)).reverse

theorem enclosingDeclaration_eq (source : Source) (n : Nat) :
    enclosingDeclaration source n = .ok (source.enclosingDeclaration n) := by
  rw [enclosingDeclaration, Source.enclosingDeclaration, enclosingBefore_eq]
  split
  · rfl
  · split <;> rfl

/-- The outline of the first class. -/
def outlineFirst (source : Source) : Checked (Option Outline) := do
  let some n := source.firstDeclaration | .ok none
  outlineOf source n

theorem outlineFirst_eq (source : Source) : outlineFirst source = .ok (Outline.first? source) := by
  rw [outlineFirst, Outline.first?]
  cases source.firstDeclaration with
  | none => rfl
  | some n => exact outlineOf_eq source n

/-- The outline of the class that a cursor refers to. -/
def outlineAt (source : Source) (n : Nat) : Checked (Option Outline) := do
  let some line ← enclosingDeclaration source n | .ok none
  outlineOf source line

theorem outlineAt_eq (source : Source) (n : Nat) :
    outlineAt source n = .ok (Outline.at? source n) := by
  rw [outlineAt, Outline.at?, enclosingDeclaration_eq, ok_bind]
  cases source.enclosingDeclaration n with
  | none => rfl
  | some line => exact outlineOf_eq source line

end ServiceInjection.Checked

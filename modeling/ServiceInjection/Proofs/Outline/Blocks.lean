import Mathlib.Tactic.SplitIfs
import ServiceInjection.Proofs.Outline.Placement
import ServiceInjection.Proofs.Source.Local

/-!
# Outline.Blocks

The members of a class body, block by block. A *block* is a run of lines that the walk
over a body reads in one step: a comment, an attribute, a blank line or a member. A
block that ends where it seems to end is read in the same way wherever it stands, so a
body that consists of such blocks has exactly the members that the blocks have on their
own (`Run.ofBody`).

Members are compared without their doc comments, since these change hands when blocks
are added.
-/

namespace ServiceInjection

open Text List

variable {numbers : List Nat} {n : Nat} {block : Nat × Members}

/-! ### Moving members -/

/-- The span `k` lines further down. -/
def LineSpan.down (k : Nat) (span : LineSpan) : LineSpan := ⟨k + span.first, k + span.last⟩

/-- The property `k` lines further down, without its doc comment. -/
def Field.moved (k : Nat) (field : Field) : Field :=
  { field with line := k + field.line, doc := none }

/-- The method `k` lines further down, without its doc comment. -/
def Method.moved (k : Nat) (method : Method) : Method :=
  { method with span := method.span.down k, doc := none }

/-- The constructor `k` lines further down, without its doc comment. -/
def Constructor.moved (k : Nat) (ctor : Constructor) : Constructor :=
  { ctor with
    startLine := k + ctor.startLine
    openBraceLine := k + ctor.openBraceLine
    endLine := k + ctor.endLine
    doc := none }

/-- The same shape `k` lines further down. -/
def FactoryShape.moved (k : Nat) : FactoryShape → FactoryShape
  | .newStatic keyword arguments trailingComma returnLine returnEndLine =>
    .newStatic keyword arguments trailingComma (k + returnLine) (k + returnEndLine)
  | .instanceAssign instanceVar assignments returnLine =>
    .instanceAssign instanceVar assignments (k + returnLine)
  | .unrecognized => .unrecognized

/-- The factory `k` lines further down, without its doc comment. -/
def Factory.moved (k : Nat) (factory : Factory) : Factory :=
  { factory with
    startLine := k + factory.startLine
    openBraceLine := k + factory.openBraceLine
    endLine := k + factory.endLine
    shape := factory.shape.moved k
    doc := none }

namespace Members

/-- The members `k` lines further down, without their doc comments. -/
def moved (k : Nat) (members : Members) : Members :=
  { traitUses := members.traitUses.map (.down k)
    fields := members.fields.map (.moved k)
    methods := members.methods.map (.moved k)
    constructor := members.constructor.map (.moved k)
    factory := members.factory.map (.moved k) }

/-- Members followed by others. The first constructor and the first factory count. -/
def append (a b : Members) : Members :=
  { traitUses := a.traitUses ++ b.traitUses
    fields := a.fields ++ b.fields
    methods := a.methods ++ b.methods
    constructor := a.constructor.or b.constructor
    factory := a.factory.or b.factory }

instance : Append Members := ⟨append⟩

theorem append_def (a b : Members) : a ++ b =
    { traitUses := a.traitUses ++ b.traitUses
      fields := a.fields ++ b.fields
      methods := a.methods ++ b.methods
      constructor := a.constructor.or b.constructor
      factory := a.factory.or b.factory } := rfl

@[simp] theorem append_empty (a : Members) : a ++ ({} : Members) = a := by
  simp [append_def]

@[simp] theorem empty_append (a : Members) : ({} : Members) ++ a = a := by
  simp [append_def]

theorem append_assoc (a b c : Members) : a ++ b ++ c = a ++ (b ++ c) := by
  simp [append_def, Option.or_assoc]

@[simp] theorem moved_empty (k : Nat) : moved k {} = {} := rfl

theorem moved_append (k : Nat) (a b : Members) : moved k (a ++ b) = moved k a ++ moved k b := by
  rcases a with ⟨traitUses, fields, methods, _ | ctor, _ | factory⟩ <;> simp [append_def, moved]

theorem moved_moved (j k : Nat) (a : Members) : moved j (moved k a) = moved (j + k) a := by
  have hshape : ∀ shape : FactoryShape, (shape.moved k).moved j = shape.moved (j + k) := by
    intro shape
    cases shape <;> simp [FactoryShape.moved, Nat.add_assoc]
  have hctor : Constructor.moved j ∘ Constructor.moved k = Constructor.moved (j + k) := by
    funext ctor
    simp [Constructor.moved, Nat.add_assoc]
  have hfactory : Factory.moved j ∘ Factory.moved k = Factory.moved (j + k) := by
    funext factory
    simp [Factory.moved, Nat.add_assoc, hshape]
  simp [moved, Function.comp_def, LineSpan.down, Field.moved, Method.moved, Nat.add_assoc,
    ← hctor, ← hfactory]

end Members

/-! ### Methods in a larger source -/

/-- The layout `k` lines further down. -/
def MethodLayout.down (k : Nat) (layout : MethodLayout) : MethodLayout :=
  ⟨layout.paramsOpen.down k, layout.paramsClose.down k, layout.bodyOpen.down k,
    layout.bodyClose.down k⟩

/-- Whether all brackets of a method stand on the first `size` lines. -/
structure MethodLayout.Within (layout : MethodLayout) (size : Nat) : Prop where
  paramsOpen : layout.paramsOpen.line < size
  paramsClose : layout.paramsClose.line < size
  bodyOpen : layout.bodyOpen.line < size
  bodyClose : layout.bodyClose.line < size

namespace Source

variable {front lines back : List Line}

theorem raw_around {i : Nat} (h : i < lines.length) :
    (around front lines back).raw (front.length + i) = (ofLines lines).raw i := by
  rw [raw, raw, line_around h]

theorem code_around {i : Nat} (h : i < lines.length) :
    (around front lines back).code (front.length + i) = (ofLines lines).code i := by
  rw [code, code, line_around h]

theorem entriesBetween_around {opening closing : Spot} (hopening : opening.line < lines.length)
    (hclosing : closing.line < lines.length) :
    (around front lines back).entriesBetween (opening.down front.length)
        (closing.down front.length) = (ofLines lines).entriesBetween opening closing := by
  rw [entriesBetween, between_around hopening hclosing, entriesBetween]

theorem bodyLines_around {opening closing : Spot} (hopening : opening.line < lines.length)
    (hclosing : closing.line < lines.length) :
    bodyLines (around front lines back) (opening.down front.length) (closing.down front.length) =
      bodyLines (ofLines lines) opening closing := by
  rw [bodyLines, bodyLines, between_around hopening hclosing]
  simp only [Spot.down_line, beq_down]
  split
  · rfl
  · exact map_inner_around Line.text hclosing

theorem constructor_around {layout : MethodLayout} (h : layout.Within lines.length)
    (doc : Option LineSpan) :
    Constructor.ofLayout (around front lines back) (layout.down front.length) doc =
      { (Constructor.ofLayout (ofLines lines) layout none).moved front.length with doc } := by
  simp only [Constructor.ofLayout, Constructor.moved, MethodLayout.down, Spot.down_line,
    Spot.down_col, entriesBetween_around h.paramsOpen h.paramsClose,
    bodyLines_around h.bodyOpen h.bodyClose, raw_around h.paramsOpen, bne, beq_down]
  rw [show (layout.bodyOpen.down front.length).next = layout.bodyOpen.next.down front.length from rfl,
    slice_around h.paramsClose (show layout.bodyOpen.next.line < _ from h.bodyOpen)]

theorem span_down (k first last : Nat) :
    span (k + first) (k + last) = (span first last).map (k + ·) := by
  rw [span, span, show k + last + 1 - (k + first) = last + 1 - first by omega, map_add_range']

theorem firstLine_around {α : Type} (find : List Char → Option α)
    (h : ∀ n ∈ numbers, n < lines.length) :
    firstLine (numbers.map (front.length + ·)) (fun n => find ((around front lines back).code n)) =
      (firstLine numbers fun n => find ((ofLines lines).code n)).map
        fun hit => (front.length + hit.1, hit.2) := by
  induction numbers with
  | nil => rfl
  | cons n numbers ih =>
    obtain ⟨hn, hnumbers⟩ := forall_mem_cons.mp h
    have hrest := ih hnumbers
    simp only [firstLine] at hrest ⊢
    rw [map_cons, findSome?_cons, findSome?_cons, code_around hn, hrest]
    cases find ((ofLines lines).code n) <;> rfl

theorem instanceShape_around (instanceVar containerVar : String)
    (h : ∀ n ∈ numbers, n < lines.length) (found : List Assignment) :
    instanceShape (around front lines back) instanceVar containerVar found
        (numbers.map (front.length + ·)) =
      (instanceShape (ofLines lines) instanceVar containerVar found numbers).moved front.length := by
  induction numbers generalizing found with
  | nil => rfl
  | cons n numbers ih =>
    obtain ⟨hn, hnumbers⟩ := forall_mem_cons.mp h
    simp only [map_cons, instanceShape, line_around hn, code_around hn]
    split
    · rfl
    · exact ih hnumbers _

end Source

/-- Whether a method is a factory. -/
def MethodHead.isFactory (head : MethodHead) : Bool := head.name == "create" && head.isStatic

theorem MethodLayout.Within.of_mem {layout : MethodLayout} {size first : Nat}
    (h : layout.Within size) : ∀ n ∈ Source.span first layout.bodyClose.line, n < size :=
  fun _ hn => Nat.lt_of_le_of_lt (Source.mem_span.mp hn).2 h.bodyClose

/-- Whether the object that a factory returns, if it is a new one, is closed. -/
def MethodLayout.returnsClosed (source : Source) (layout : MethodLayout) : Bool :=
  match firstLine (Source.span layout.bodyOpen.line layout.bodyClose.line)
      fun n => firstWordMatch returnNew (source.code n) with
  | some (n, m) => (source.matchingClose ⟨n, m.stop - 1⟩ '(' ')').isSome
  | none => true

namespace Source

variable {front lines back : List Line}

theorem of_firstLine {α : Type} {find : Nat → Option α} {a : α}
    (h : firstLine numbers find = some (n, a)) : n ∈ numbers ∧ find n = some a := by
  obtain ⟨m, hm, hfind⟩ := exists_of_findSome?_eq_some h
  obtain ⟨b, hb, heq⟩ := Option.map_eq_some_iff.mp hfind
  cases heq
  exact ⟨hm, hb⟩

theorem shape_around {layout : MethodLayout} (h : layout.Within lines.length)
    (hclosed : layout.returnsClosed (ofLines lines) = true) (containerVar : String) :
    FactoryShape.ofBody (around front lines back) containerVar (layout.bodyOpen.down front.length)
        (layout.bodyClose.down front.length) =
      (FactoryShape.ofBody (ofLines lines) containerVar layout.bodyOpen layout.bodyClose).moved
        front.length := by
  rw [FactoryShape.ofBody, FactoryShape.ofBody]
  rw [MethodLayout.returnsClosed] at hclosed
  simp only [Spot.down_line, span_down]
  rw [firstLine_around _ h.of_mem]
  cases hnew : firstLine (span layout.bodyOpen.line layout.bodyClose.line)
      fun n => firstWordMatch returnNew ((ofLines lines).code n) with
  | some hit =>
    obtain ⟨n, m⟩ := hit
    rw [hnew] at hclosed
    obtain ⟨close, hclose⟩ := Option.isSome_iff_exists.mp hclosed
    have hn := h.of_mem n (of_firstLine hnew).1
    have hbig := @matchingClose_around front lines back _ _ _ _ hclose hn
    have hentries := @entriesBetween_around front lines back ⟨n, m.stop - 1⟩ close hn
      (matchingClose_spec hclose).1.line_lt
    simp only [Spot.down] at hbig hentries
    simp only [Option.map_some, hbig, hclose, hentries]
    rfl
  | none =>
    simp only [Option.map_none]
    rw [firstLine_around _ h.of_mem]
    cases hparent : firstLine (span layout.bodyOpen.line layout.bodyClose.line)
        fun n => firstMatch parentCreate ((ofLines lines).code n) with
    | none => rfl
    | some hit =>
      obtain ⟨n, m⟩ := hit
      simp only [Option.map_some, span_down]
      exact instanceShape_around _ _ h.of_mem []

theorem factory_around {layout : MethodLayout} (h : layout.Within lines.length)
    (hclosed : layout.returnsClosed (ofLines lines) = true) (doc : Option LineSpan) :
    Factory.ofLayout (around front lines back) (layout.down front.length) doc =
      { (Factory.ofLayout (ofLines lines) layout none).moved front.length with doc } := by
  have hids : ∀ containerVar : String,
      (span (front.length + layout.bodyOpen.line) (front.length + layout.bodyClose.line)).flatMap
          (fun n => fetchedOn containerVar ((around front lines back).line n)) =
        (span layout.bodyOpen.line layout.bodyClose.line).flatMap
          fun n => fetchedOn containerVar ((ofLines lines).line n) := by
    intro containerVar
    rw [flatMap_def, map_span_around (fetchedOn containerVar) h.bodyClose, ← flatMap_def]
  simp only [Factory.ofLayout, Factory.moved, MethodLayout.down, Spot.down_line,
    entriesBetween_around h.paramsOpen h.paramsClose, hids, shape_around h hclosed]

end Source

/-! ### Blocks -/

namespace Source

/-- Whether the comment that starts on line `n` is closed on line `l`. -/
def closesComment (source : Source) (n l : Nat) : Bool :=
  containsText "*/" (if l == n then (trimStart (source.raw l)).drop 2 else source.raw l)

/-- The last line of the comment that starts on line `n`, if it is closed. -/
def commentEnd? (source : Source) (n : Nat) : Option Nat :=
  (List.range' n (source.size - n)).find? (source.closesComment n)

/-- The first line behind the method with the given head on line `n`, and what it adds,
if it is closed. -/
def methodAt? (source : Source) (n : Nat) (head : MethodHead) : Option (Nat × Members) := do
  let paramsClose ← source.matchingClose ⟨n, head.paren⟩ '(' ')'
  let glyph ← source.firstOf paramsClose.next ['{', ';']
  if glyph.char == '{' then
    let bodyClose ← source.matchingClose glyph.spot '{' '}'
    let layout : MethodLayout := ⟨⟨n, head.paren⟩, paramsClose, glyph.spot, bodyClose⟩
    guard (!head.isFactory || layout.returnsClosed source)
    some (bodyClose.line + 1, MemberScan.addMethod source {} head layout none)
  else
    let stop ← source.firstOf ⟨n, 0⟩ [';']
    some (stop.spot.line + 1,
      { methods := [⟨head.name, ⟨n, stop.spot.line⟩, none, head.isStatic⟩] })

/-- The first line behind the trait use on line `n`, and what it adds, if it is
closed. -/
def traitUseAt? (source : Source) (n : Nat) : Option (Nat × Members) := do
  let glyph ← source.firstOf ⟨n, 0⟩ [';', '{']
  let last ←
    if glyph.char == ';' then some glyph.spot.line
    else (source.matchingClose glyph.spot '{' '}').map (·.line)
  some (last + 1, { traitUses := [⟨n, last⟩] })

/-- The first line behind the member on line `n`, and what it adds, if it is closed. -/
def memberAt? (source : Source) (n : Nat) : Option (Nat × Members) :=
  let code := source.code n
  if isTraitUse code then source.traitUseAt? n
  else match MethodHead.of? code with
    | some head => source.methodAt? n head
    | none =>
      if isConstant code then
        (source.firstOf ⟨n, 0⟩ [';']).map fun stop => (stop.spot.line + 1, {})
      else
        match propertyDecl code with
        | some decl =>
          (source.firstOf ⟨n, 0⟩ [';']).map fun stop =>
            (stop.spot.line + 1,
              { fields := [⟨String.ofList decl.name, n, decl.typeHint.map String.ofList, none, false⟩] })
        | none => none

/-- The first line behind the attribute on line `n`. One with code behind it has to be
closed on its line, and belongs to the member there. -/
def attributeAt? (source : Source) (n : Nat) : Option (Nat × Members) := do
  let close ← source.matchingClose ⟨n, (leadingBlanks (source.code n)).length⟩ '[' ']'
  if isBlankLine ((source.code close.line).drop (close.col + 1)) then some (close.line + 1, {})
  else if close.line == n then source.memberAt? n
  else none

/-- The first line behind the block that starts on line `n`, and the members it adds, if
the block is closed. -/
def blockAt? (source : Source) (n : Nat) : Option (Nat × Members) :=
  if startsWith "/*" (trimStart (source.raw n)) then
    (source.commentEnd? n).map fun last => (last + 1, {})
  else if startsWith "#[" (trimStart (source.code n)) then source.attributeAt? n
  else if isBlankLine (source.code n) then some (n + 1, {})
  else source.memberAt? n

/-! A block is read in the same way in every source that it stands in. -/

variable {front lines back : List Line}

/-- What a block adds, `k` lines further down. -/
def blockDown (k : Nat) (block : Nat × Members) : Nat × Members := (k + block.1, block.2.moved k)

theorem commentEnd?_around {last : Nat} (h : (ofLines lines).commentEnd? n = some last) :
    (around front lines back).commentEnd? (front.length + n) = some (front.length + last) ∧
      last < lines.length := by
  obtain ⟨hlast, before, behind, hsplit, hnone⟩ := find?_eq_some_iff_append.mp h
  have hlt : ∀ l ∈ before ++ last :: behind, n ≤ l ∧ l < lines.length := by
    intro l hl
    have := mem_range'_1.mp (hsplit ▸ hl)
    have : (ofLines lines).size = lines.length := rfl
    omega
  have hcloses : ∀ l ∈ before ++ last :: behind,
      (around front lines back).closesComment (front.length + n) (front.length + l) =
        (ofLines lines).closesComment n l := by
    intro l hl
    rw [closesComment, closesComment, beq_down, raw_around (hlt l hl).2]
  have hmem : last ∈ before ++ last :: behind := by simp
  refine ⟨?_, (hlt last hmem).2⟩
  have hsize : (around front lines back).size - (front.length + n) =
      ((ofLines lines).size - n) + (back.length - (n - lines.length)) := by
    have h1 : (around front lines back).size = front.length + (lines.length + back.length) := by
      simp [size, around, ofLines]
    have h2 : (ofLines lines).size = lines.length := rfl
    have := hlt last hmem
    omega
  have hrange : range' (front.length + n) ((around front lines back).size - (front.length + n)) =
      before.map (front.length + ·) ++ (front.length + last) :: (behind.map (front.length + ·) ++
        range' (front.length + n + ((ofLines lines).size - n))
          (back.length - (n - lines.length))) := by
    rw [hsize, ← range'_append_1, ← map_add_range', hsplit]
    simp
  refine find?_eq_some_iff_append.mpr ⟨?_, before.map (front.length + ·), _, hrange, ?_⟩
  · rw [hcloses last hmem]
    exact hlast
  · intro l hl
    obtain ⟨l, hmem, rfl⟩ := mem_map.mp hl
    rw [hcloses l (mem_append_left _ hmem)]
    exact hnone l hmem

theorem addMethod_around {head : MethodHead} {layout : MethodLayout}
    (h : layout.Within lines.length)
    (hclosed : (!head.isFactory || layout.returnsClosed (ofLines lines)) = true) :
    MemberScan.addMethod (around front lines back) {} head (layout.down front.length) none =
      (MemberScan.addMethod (ofLines lines) {} head layout none).moved front.length := by
  have hpromoted : ∀ ctor : Constructor, MemberScan.promotedFields (ctor.moved front.length) =
      (MemberScan.promotedFields ctor).map (.moved front.length) := by
    intro ctor
    simp [MemberScan.promotedFields, Constructor.moved, Field.moved, Function.comp_def]
  have hctor : _ = (Constructor.ofLayout (ofLines lines) layout none).moved front.length :=
    @constructor_around front lines back layout h none
  simp only [MemberScan.addMethod]
  split
  · simp only [hctor, hpromoted, nil_append, Option.none_or]
    rfl
  · split
    · rename_i hname
      rw [show head.isFactory = true from hname] at hclosed
      rw [factory_around h hclosed]
      rfl
    · rfl

theorem returnsClosed_around {layout : MethodLayout} (h : layout.Within lines.length)
    (hclosed : layout.returnsClosed (ofLines lines) = true) :
    (layout.down front.length).returnsClosed (around front lines back) = true := by
  rw [MethodLayout.returnsClosed] at hclosed ⊢
  simp only [MethodLayout.down, Spot.down_line, span_down]
  rw [firstLine_around _ h.of_mem]
  split at hclosed
  · rename_i n m hnew
    obtain ⟨close, hclose⟩ := Option.isSome_iff_exists.mp hclosed
    rw [hnew]
    exact Option.isSome_iff_exists.mpr
      ⟨_, matchingClose_around hclose (h.of_mem n (of_firstLine hnew).1)⟩
  · rename_i hnone
    rw [hnone]
    rfl

theorem methodAt?_around {head : MethodHead} (hn : n < lines.length)
    (h : (ofLines lines).methodAt? n head = some block) :
    (around front lines back).methodAt? (front.length + n) head =
      some (blockDown front.length block) := by
  simp only [methodAt?, Option.bind_eq_bind, Option.bind_eq_some_iff] at h ⊢
  obtain ⟨paramsClose, hparams, glyph, hglyph, h⟩ := h
  have hparamsLine := (matchingClose_spec hparams).1.line_lt
  have hglyphLine := (firstOf_spec hglyph).1.line_lt
  refine ⟨_, matchingClose_around hparams hn, _, firstOf_around hglyph hparamsLine, ?_⟩
  rw [show (glyph.down front.length).char = glyph.char from rfl]
  split_ifs at h ⊢ with hbrace
  · simp only [Option.bind_eq_some_iff, Option.guard_eq_some'] at h ⊢
    obtain ⟨bodyClose, hbody, _, hclosed, h⟩ := h
    cases h
    have hwithin : MethodLayout.Within ⟨⟨n, head.paren⟩, paramsClose, glyph.spot, bodyClose⟩
        lines.length :=
      ⟨hn, hparamsLine, hglyphLine, (matchingClose_spec hbody).1.line_lt⟩
    refine ⟨_, matchingClose_around hbody hglyphLine, (), ?_,
      congrArg (fun added => some (_, added)) (addMethod_around hwithin hclosed)⟩
    cases hkind : head.isFactory with
    | false => rfl
    | true =>
      rw [hkind] at hclosed
      exact returnsClosed_around hwithin hclosed
  · obtain ⟨stop, hstop, h⟩ := Option.bind_eq_some_iff.mp h
    cases h
    exact Option.bind_eq_some_iff.mpr ⟨_, firstOf_around hstop hn, rfl⟩

theorem traitUseAt?_around (hn : n < lines.length) (h : (ofLines lines).traitUseAt? n = some block) :
    (around front lines back).traitUseAt? (front.length + n) =
      some (blockDown front.length block) := by
  simp only [traitUseAt?, Option.bind_eq_bind, Option.bind_eq_some_iff] at h ⊢
  obtain ⟨glyph, hglyph, h⟩ := h
  refine ⟨_, firstOf_around hglyph hn, ?_⟩
  rw [show (glyph.down front.length).char = glyph.char from rfl]
  split_ifs at h ⊢ with hchar
  · cases h
    rfl
  · obtain ⟨last, hlast, h⟩ := Option.bind_eq_some_iff.mp h
    obtain ⟨close, hclose, rfl⟩ := Option.map_eq_some_iff.mp hlast
    cases h
    exact Option.bind_eq_some_iff.mpr ⟨_, Option.map_eq_some_iff.mpr
      ⟨_, matchingClose_around hclose (firstOf_spec hglyph).1.line_lt, rfl⟩, rfl⟩

theorem memberAt?_around (hn : n < lines.length) (h : (ofLines lines).memberAt? n = some block) :
    (around front lines back).memberAt? (front.length + n) =
      some (blockDown front.length block) := by
  simp only [memberAt?, code_around hn] at h ⊢
  by_cases huse : isTraitUse ((ofLines lines).code n) = true
  · rw [if_pos huse] at h ⊢
    exact traitUseAt?_around hn h
  · rw [if_neg huse] at h ⊢
    split at h
    · exact methodAt?_around hn h
    · split_ifs at h ⊢ with hconst
      · obtain ⟨stop, hstop, rfl⟩ := Option.map_eq_some_iff.mp h
        exact Option.map_eq_some_iff.mpr ⟨_, firstOf_around hstop hn, rfl⟩
      · split at h
        · obtain ⟨stop, hstop, rfl⟩ := Option.map_eq_some_iff.mp h
          exact Option.map_eq_some_iff.mpr ⟨_, firstOf_around hstop hn, rfl⟩
        · cases h

theorem attributeAt?_around (hn : n < lines.length)
    (h : (ofLines lines).attributeAt? n = some block) :
    (around front lines back).attributeAt? (front.length + n) =
      some (blockDown front.length block) := by
  simp only [attributeAt?, code_around hn, Option.bind_eq_bind, Option.bind_eq_some_iff] at h ⊢
  obtain ⟨close, hclose, h⟩ := h
  have hline : close.line < lines.length := (matchingClose_spec hclose).1.line_lt
  refine ⟨_, matchingClose_around hclose hn, ?_⟩
  rw [Spot.down_line, Spot.down_col, code_around hline, beq_down]
  split_ifs at h ⊢ with hblank hsame
  · cases h
    rfl
  · exact memberAt?_around hn h

/-- **Blocks stand on their own.** A block that is closed within some lines is the same
block in every source around them. -/
theorem blockAt?_around {n : Nat} {block : Nat × Members} (hn : n < lines.length)
    (h : (ofLines lines).blockAt? n = some block) :
    (around front lines back).blockAt? (front.length + n) = some (blockDown front.length block) := by
  simp only [blockAt?] at h ⊢
  rw [raw_around hn, code_around hn]
  split_ifs at h ⊢ with hcomment hattribute hblank
  · obtain ⟨last, hlast, rfl⟩ := Option.map_eq_some_iff.mp h
    rw [(commentEnd?_around hlast).1]
    rfl
  · exact attributeAt?_around hn h
  · cases h
    rfl
  · exact memberAt?_around hn h

end Source

/-! ### The walk over blocks -/

namespace MemberScan

variable {source : Source} {scan : MemberScan} {n : Nat}

/-- Whether a step of the walk reads a block: it adds the members of the block and goes
on behind it. -/
structure Advances (scan scan' : MemberScan) (block : Nat × Members) : Prop where
  members : scan'.members.moved 0 = scan.members.moved 0 ++ block.2.moved 0
  depth : scan'.depth = scan.depth
  resume : scan'.resume = block.1

theorem Advances.of_doc {scan' : MemberScan} (hmembers : scan'.members = scan.members)
    (hblock : block.2 = {}) (hdepth : scan'.depth = scan.depth) (hresume : scan'.resume = block.1) :
    Advances scan scan' block := by
  refine ⟨?_, hdepth, hresume⟩
  rw [hmembers, hblock, Members.moved_empty, Members.append_empty]

theorem addMethod_eq (source : Source) (members : Members) (head : MethodHead)
    (layout : MethodLayout) (doc : Option LineSpan) :
    (addMethod source members head layout doc).moved 0 =
      members.moved 0 ++ (addMethod source {} head layout none).moved 0 := by
  have hctor : (Constructor.ofLayout source layout doc).moved 0 =
      (Constructor.ofLayout source layout none).moved 0 := rfl
  have hfactory : (Factory.ofLayout source layout doc).moved 0 =
      (Factory.ofLayout source layout none).moved 0 := rfl
  have hpromoted : promotedFields (Constructor.ofLayout source layout doc) =
      promotedFields (Constructor.ofLayout source layout none) := rfl
  rcases members with ⟨traitUses, fields, methods, _ | ctor, _ | factory⟩ <;>
    simp only [addMethod] <;> split <;> (try split) <;>
    simp [Members.append_def, Members.moved, hctor, hfactory, hpromoted, Method.moved]

theorem readMethod_advances {head : MethodHead} (h : source.methodAt? n head = some block) :
    Advances scan (readMethod source scan n head) block := by
  simp only [Source.methodAt?, Option.bind_eq_bind, Option.bind_eq_some_iff] at h
  obtain ⟨paramsClose, hparams, glyph, hglyph, h⟩ := h
  split_ifs at h with hbrace
  · obtain ⟨bodyClose, hbody, h⟩ := Option.bind_eq_some_iff.mp h
    obtain ⟨_, hguard, h⟩ := Option.bind_eq_some_iff.mp h
    cases h
    have hat : MethodLayout.at? source ⟨n, head.paren⟩ =
        some ⟨⟨n, head.paren⟩, paramsClose, glyph.spot, bodyClose⟩ := by
      have hchar : glyph.char = '{' := by simpa using hbrace
      simp [MethodLayout.at?, hparams, hglyph, hchar, hbody, guard]
    rw [readMethod, hat]
    exact ⟨addMethod_eq source scan.members head _ scan.doc, rfl, rfl⟩
  · obtain ⟨stop, hstop, h⟩ := Option.bind_eq_some_iff.mp h
    cases h
    have hat : MethodLayout.at? source ⟨n, head.paren⟩ = none := by
      have hchar : glyph.char ≠ '{' := by simpa using hbrace
      simp [MethodLayout.at?, hparams, hglyph, hchar, guard]
    rw [readMethod, hat]
    simp only [Source.lineOfFirst, hstop]
    exact ⟨by simp [Members.append_def, Members.moved, Method.moved], rfl, rfl⟩

theorem readMember_advances (h : source.memberAt? n = some block) :
    Advances scan (readMember source scan n) block := by
  simp only [Source.memberAt?] at h
  rw [readMember]
  dsimp only
  by_cases huse : isTraitUse (source.code n) = true
  · rw [if_pos huse] at h ⊢
    have hend : block = (traitUseEnd source n + 1, { traitUses := [⟨n, traitUseEnd source n⟩] }) := by
      simp only [Source.traitUseAt?, Option.bind_eq_bind, Option.bind_eq_some_iff] at h
      obtain ⟨glyph, hglyph, h⟩ := h
      rw [traitUseEnd, hglyph]
      dsimp only
      split_ifs at h ⊢ with hchar
      · exact (Option.some.inj h).symm
      · obtain ⟨last, hlast, h⟩ := Option.bind_eq_some_iff.mp h
        obtain ⟨close, hclose, rfl⟩ := Option.map_eq_some_iff.mp hlast
        rw [hclose]
        exact (Option.some.inj h).symm
    rw [hend]
    exact ⟨by simp [Members.append_def, Members.moved], rfl, rfl⟩
  · rw [if_neg huse] at h ⊢
    cases hhead : MethodHead.of? (source.code n) with
    | some head =>
      rw [hhead] at h
      exact readMethod_advances h
    | none =>
      rw [hhead] at h
      dsimp only at h ⊢
      split_ifs at h ⊢ with hconst
      · obtain ⟨stop, hstop, rfl⟩ := Option.map_eq_some_iff.mp h
        rw [Source.lineOfFirst, hstop]
        exact .of_doc rfl rfl rfl rfl
      · split at h
        · obtain ⟨stop, hstop, rfl⟩ := Option.map_eq_some_iff.mp h
          simp only [*, readProperty, Source.lineOfFirst]
          exact ⟨by simp [Members.append_def, Members.moved, Field.moved], rfl, rfl⟩
        · cases h

theorem commentEnd_eq {last limit : Nat} (h : source.commentEnd? n = some last)
    (hlimit : last < limit) : commentEnd source n limit = last := by
  rw [Source.commentEnd?, find?_range'_eq_some] at h
  obtain ⟨hcloses, hmem, hnone⟩ := h
  have hle := (mem_range'_1.mp hmem).1
  have hfind : (Source.span n (limit - 1)).find? (source.closesComment n) = some last := by
    rw [Source.span, find?_range'_eq_some]
    exact ⟨hcloses, mem_range'_1.mpr (by omega), hnone⟩
  show ((Source.span n (limit - 1)).find? (source.closesComment n)).getD n = last
  rw [hfind]
  rfl

/-- At the depth of the members, a step of the walk reads the block that starts
there. -/
theorem step_advances {block : Nat × Members} {limit : Nat} (h : source.blockAt? n = some block)
    (hlimit : block.1 ≤ limit) (hresume : scan.resume ≤ n) (hdepth : scan.depth ≤ 0) :
    Advances scan (step source limit scan n) block := by
  simp only [Source.blockAt?] at h
  rw [step, if_neg (Nat.not_lt.mpr hresume), if_neg (Int.not_lt.mpr hdepth)]
  dsimp only
  split_ifs at h with hcomment hattribute hblank
  · obtain ⟨last, hlast, rfl⟩ := Option.map_eq_some_iff.mp h
    rw [if_pos hcomment, commentEnd_eq hlast hlimit]
    exact .of_doc rfl rfl rfl rfl
  · rw [if_neg hcomment]
    simp only [Source.attributeAt?, Option.bind_eq_bind, Option.bind_eq_some_iff] at h
    obtain ⟨close, hclose, h⟩ := h
    split_ifs at h with hblank hsame
    · have hend : attributeEnd source n = some close.line := by
        simp [attributeEnd, hattribute, hclose, hblank, guard]
      cases h
      rw [hend]
      exact .of_doc rfl rfl rfl rfl
    · have hend : attributeEnd source n = none := by
        simp [attributeEnd, hattribute, hclose, hblank, guard]
      have hcode : ¬ isBlankLine (source.code n) = true := by
        intro hall
        have hmem : '#' ∈ source.code n := (dropWhile_suffix _).subset
          ((List.isPrefixOf_iff_prefix.mp hattribute).subset (by simp))
        exact absurd (all_eq_true.mp hall '#' hmem) (by decide)
      rw [hend]
      dsimp only
      rw [if_neg hcode]
      exact readMember_advances h
  all_goals
    have hend : attributeEnd source n = none := by
      simp [attributeEnd, hattribute, guard]
    simp only [if_neg hcomment, hend]
  · cases h
    rw [if_pos hblank]
    exact .of_doc rfl rfl rfl rfl
  · rw [if_neg hblank]
    exact readMember_advances h

end MemberScan

/-- Lines that consist of blocks, and the members that these add. -/
inductive Run : List Line → Members → Prop where
  | nil : Run [] {}
  | cons {lines rest : List Line} {added more : Members}
      (hblock : (Source.ofLines lines).blockAt? 0 = some (lines.length, added))
      (hrest : Run rest more) : Run (lines ++ rest) (added ++ more.moved lines.length)

namespace Run

variable {front lines back : List Line} {added : Members}

theorem ne_nil_of_block (h : (Source.ofLines lines).blockAt? 0 = some (lines.length, added)) :
    lines ≠ [] := by
  rintro rfl
  have hblank : (Source.ofLines []).blockAt? 0 = some (1, {}) := by decide
  rw [hblank] at h
  cases h

theorem moved_zero_of_block (h : (Source.ofLines lines).blockAt? 0 = some (lines.length, added)) :
    added.moved 0 = added := by
  have hpos : 0 < lines.length := length_pos_iff.mpr (ne_nil_of_block h)
  have hself := @Source.blockAt?_around [] lines [] 0 _ hpos h
  rw [show Source.around [] lines [] = Source.ofLines lines by simp [Source.around],
    show ([] : List Line).length + 0 = 0 from rfl, h] at hself
  exact (congrArg Prod.snd (Option.some.inj hself)).symm

theorem moved_zero (h : Run lines added) : added.moved 0 = added := by
  cases h with
  | nil => rfl
  | cons hblock hrest =>
    rw [Members.moved_append, moved_zero_of_block hblock, Members.moved_moved, Nat.zero_add]

/-- Blocks behind blocks. -/
theorem append {lines' : List Line} {added' : Members} (h : Run lines added)
    (h' : Run lines' added') : Run (lines ++ lines') (added ++ added'.moved lines.length) := by
  induction h with
  | nil =>
    rw [nil_append, length_nil, h'.moved_zero, Members.empty_append]
    exact h'
  | @cons lines rest added more hblock hrest ih =>
    rw [append_assoc, Members.append_assoc, length_append, ← Members.moved_moved,
      ← Members.moved_append]
    exact .cons hblock ih

/-- Lines that have been read already are passed over. -/
theorem foldl_step_of_lt {source : Source} {limit : Nat} {scan : MemberScan}
    (h : ∀ n ∈ numbers, n < scan.resume) :
    numbers.foldl (MemberScan.step source limit) scan = scan := by
  induction numbers with
  | nil => rfl
  | cons n numbers ih =>
    obtain ⟨hn, hnumbers⟩ := forall_mem_cons.mp h
    have hstep : MemberScan.step source limit scan n = scan := by
      rw [MemberScan.step, if_pos hn]
    rw [foldl_cons, hstep]
    exact ih hnumbers

/-- The walk over blocks adds their members one after the other. -/
theorem foldl_step (h : Run lines added) {limit : Nat} {scan : MemberScan}
    (hlimit : front.length + lines.length ≤ limit) (hresume : scan.resume ≤ front.length)
    (hdepth : scan.depth ≤ 0) :
    let scan' := (range' front.length lines.length).foldl
      (MemberScan.step (.around front lines back) limit) scan
    scan'.members.moved 0 = scan.members.moved 0 ++ added.moved front.length ∧
      scan'.resume ≤ front.length + lines.length := by
  induction h generalizing front scan with
  | nil => exact ⟨by simp, hresume⟩
  | @cons lines rest added more hblock hrest ih =>
    intro scan'
    have hpos : 0 < lines.length := length_pos_iff.mpr (ne_nil_of_block hblock)
    have hsource : Source.around front (lines ++ rest) back =
        .around front lines (rest ++ back) := by
      simp [Source.around]
    have hsource' : Source.around front (lines ++ rest) back = .around (front ++ lines) rest back := by
      simp [Source.around]
    rw [length_append] at hlimit
    have hrange : range' front.length (lines ++ rest).length = front.length ::
        (range' (front.length + 1) (lines.length - 1) ++
          range' (front ++ lines).length rest.length) := by
      rw [length_append, length_append, ← cons_append, ← range'_succ,
        Nat.sub_add_cancel hpos, ← range'_append_1]
    have hat := @Source.blockAt?_around front lines (rest ++ back) 0 _ hpos hblock
    rw [Nat.add_zero, ← hsource] at hat
    have hstep := @MemberScan.step_advances _ scan _ _ limit hat
      (by simp only [Source.blockDown]; omega) hresume hdepth
    have hskip : ∀ n ∈ range' (front.length + 1) (lines.length - 1),
        n < (MemberScan.step (.around front (lines ++ rest) back) limit scan front.length).resume := by
      intro n hn
      have := mem_range'_1.mp hn
      rw [hstep.resume, Source.blockDown]
      omega
    have hscan' : scan' = (range' (front ++ lines).length rest.length).foldl
        (MemberScan.step (.around (front ++ lines) rest back) limit)
        (MemberScan.step (.around front (lines ++ rest) back) limit scan front.length) := by
      show foldl _ scan _ = _
      rw [hrange, foldl_cons, foldl_append, foldl_step_of_lt hskip, hsource']
    have hlength : (front ++ lines).length = front.length + lines.length := length_append
    obtain ⟨hmembers, hle⟩ := @ih (front ++ lines) _ (by rw [hlength]; omega)
      (by rw [hstep.resume, hlength]; exact Nat.le_refl _) (hstep.depth ▸ hdepth)
    rw [← hscan'] at hmembers hle
    refine ⟨?_, by rw [length_append]; omega⟩
    rw [hmembers, hstep.members, Source.blockDown, Members.moved_moved, Nat.zero_add,
      Members.moved_append, Members.moved_moved, Members.append_assoc, hlength]

/-- **The members of a body of blocks** are those of the blocks. -/
theorem ofBody (h : Run lines added) {openLine closeLine : Nat} (hopen : front.length = openLine + 1)
    (hclose : closeLine = front.length + lines.length) :
    (Members.ofBody (.around front lines back) openLine closeLine).moved 0 =
      added.moved front.length := by
  have hspan : Source.span (openLine + 1) (closeLine - 1) =
      range' front.length lines.length := by
    rw [Source.span, hopen, show closeLine - 1 + 1 - (openLine + 1) = lines.length by omega]
  rw [Members.ofBody, hspan]
  have := (@foldl_step front lines back added h closeLine {} (by omega) (Nat.zero_le _)
    (Int.le_refl 0)).1
  rw [this]
  exact Members.empty_append _

end Run

end ServiceInjection

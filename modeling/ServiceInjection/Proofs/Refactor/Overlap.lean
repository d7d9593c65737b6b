import ServiceInjection.Proofs.Call.Disjoint
import ServiceInjection.Proofs.Edit.Application
import ServiceInjection.Proofs.Outline.Placement
import ServiceInjection.Proofs.Refactor.Steps
import ServiceInjection.Proofs.Wiring.Lockstep

/-!
# Refactor.Overlap

When the edits of a refactoring overlap. Two kinds of edit rewrite whole lines: the
one that extends the constructor and the one that extends the return statement of
the factory. All others insert text between two lines or in the class head, or
replace a call. The places of these edits come from different readings of the
source, and they do not always keep clear of each other: `Draft.Apart` says when
they do, in terms of lines.
-/

namespace ServiceInjection

open Position List

variable {replacement : Replacement} {span : LineSpan} {text : String} {edits : List Edit}

/-! ### Lines that edits touch

Once their kinds are known, whether two edits overlap is a question about lines. Rewritten lines
start and end with one that is not empty. So they meet an insertion exactly if it goes between two
of them (`compatible_seam_iff`), and a replaced call exactly if it is on one of them. -/

namespace Subject

variable {subject : Subject} {a b edit : Edit} {span span' : LineSpan} {seam : Nat}

/-- The range of whole lines. -/
def rangeOf (subject : Subject) (span : LineSpan) : Range :=
  ⟨⟨span.first, 0⟩, ⟨span.last, subject.lineEnd span.last⟩⟩

/-- Whether an edit inserts text in front of line `seam`, at the start of that line or
at the end of the one before. -/
def AtSeam (subject : Subject) (seam : Nat) (edit : Edit) : Prop :=
  edit.range = ⟨⟨seam, 0⟩, ⟨seam, 0⟩⟩ ∨
    ∃ line, seam = line + 1 ∧
      edit.range = ⟨⟨line, subject.lineEnd line⟩, ⟨line, subject.lineEnd line⟩⟩

/-- Whether an edit inserts text no further down than the line of the class brace. -/
def InHead (subject : Subject) (edit : Edit) : Prop :=
  ∃ position : Position, position.line ≤ subject.outline.decl.openBraceLine ∧
    edit.range = ⟨position, position⟩

/-- Whether lines of the class body start and end with a line that is not empty. -/
structure Solid (subject : Subject) (span : LineSpan) : Prop where
  brace_lt : subject.outline.decl.openBraceLine < span.first
  first_le : span.first ≤ span.last
  first_ne : subject.source.raw span.first ≠ []
  last_ne : subject.source.raw span.last ≠ []

/-- Whether a call lies on a line of the class body. -/
structure Spans (subject : Subject) (call : StaticCall) : Prop where
  brace_lt : subject.outline.decl.openBraceLine < call.line
  start_lt : call.startColumn < call.endColumn
  end_le : call.endColumn ≤ subject.lineEnd call.line

theorem lineEnd_pos {n : Nat} (h : subject.source.raw n ≠ []) : 0 < subject.lineEnd n := by
  obtain ⟨c, cs, hraw⟩ := exists_cons_of_ne_nil h
  have hpos := Text.units16_pos c
  rw [lineEnd, hraw, Text.width16]
  omega

theorem AtSeam.isInsertion (h : subject.AtSeam seam edit) : edit.isInsertion = true := by
  rw [Edit.isInsertion_iff]
  rcases h with h | ⟨line, -, h⟩ <;> rw [h]

theorem InHead.isInsertion (h : subject.InHead edit) : edit.isInsertion = true := by
  obtain ⟨position, -, h⟩ := h
  rw [Edit.isInsertion_iff, h]

theorem Solid.not_isInsertion (h : subject.Solid span) (hedit : edit.range = subject.rangeOf span) :
    edit.isInsertion = false := by
  have hpos := lineEnd_pos h.last_ne
  rw [Bool.eq_false_iff, ne_eq, Edit.isInsertion_iff, hedit, Position.eq_def]
  simp only [rangeOf]
  omega

theorem Spans.not_isInsertion (h : subject.Spans replacement.call) :
    replacement.edit.isInsertion = false := by
  have hlt := h.start_lt
  rw [Bool.eq_false_iff, ne_eq, Edit.isInsertion_iff, Position.eq_def]
  simp only [Replacement.edit]
  omega

/-- An insertion and a replacement never do the same. -/
theorem compatible_iff_of_isInsertion (ha : a.isInsertion = true) (hb : b.isInsertion = false) :
    a.Compatible b ↔ a.Disjoint b := by
  refine ⟨fun h => h.resolve_left fun hsame => ?_, .inr⟩
  rw [Edit.isInsertion_iff, (Edit.sameEffect_iff.mp hsame).1, ← Edit.isInsertion_iff, hb] at ha
  cases ha

theorem compatible_seam_iff (ha : subject.AtSeam seam a) (hb : b.range = subject.rangeOf span)
    (hsolid : subject.Solid span) :
    a.Compatible b ↔ ¬ (span.first < seam ∧ seam ≤ span.last) := by
  have hfirst := lineEnd_pos hsolid.first_ne
  have hlast := lineEnd_pos hsolid.last_ne
  rw [compatible_iff_of_isInsertion ha.isInsertion (hsolid.not_isInsertion hb), Edit.Disjoint, hb,
    le_def, le_def]
  rcases ha with ha | ⟨line, rfl, ha⟩
  · rw [ha]
    simp only [rangeOf]
    omega
  · rw [ha]
    simp only [rangeOf]
    have heq : span.last = line → subject.lineEnd span.last = subject.lineEnd line :=
      fun h => h ▸ rfl
    have heq' : line = span.first → subject.lineEnd line = subject.lineEnd span.first :=
      fun h => h ▸ rfl
    omega

theorem compatible_head (ha : subject.InHead a) (hb : b.range = subject.rangeOf span)
    (hsolid : subject.Solid span) : a.Compatible b := by
  obtain ⟨position, hle, ha⟩ := ha
  have hlt := hsolid.brace_lt
  refine .inr (.inl ?_)
  rw [ha, hb, le_def]
  exact .inl (Nat.lt_of_le_of_lt hle hlt)

theorem compatible_seam_call (ha : subject.AtSeam seam a) (hcall : subject.Spans replacement.call) :
    a.Compatible replacement.edit := by
  have hlt := hcall.start_lt
  have hle := hcall.end_le
  rw [compatible_iff_of_isInsertion ha.isInsertion hcall.not_isInsertion, Edit.Disjoint, le_def,
    le_def]
  rcases ha with ha | ⟨line, rfl, ha⟩
  · rw [ha]
    simp only [Replacement.edit]
    omega
  · rw [ha]
    simp only [Replacement.edit]
    have heq : replacement.call.line = line →
        subject.lineEnd replacement.call.line = subject.lineEnd line := fun h => h ▸ rfl
    omega

theorem compatible_head_call (ha : subject.InHead a) (hcall : subject.Spans replacement.call) :
    a.Compatible replacement.edit := by
  obtain ⟨position, hle, ha⟩ := ha
  refine .inr (.inl ?_)
  rw [ha, le_def]
  exact .inl (Nat.lt_of_le_of_lt hle hcall.brace_lt)

theorem compatible_spans_iff (ha : a.range = subject.rangeOf span)
    (hb : b.range = subject.rangeOf span') (hsolid : subject.Solid span)
    (hsolid' : subject.Solid span') (hne : span.first ≠ span'.first) :
    a.Compatible b ↔ span.last < span'.first ∨ span'.last < span.first := by
  have hlast := lineEnd_pos hsolid.last_ne
  have hlast' := lineEnd_pos hsolid'.last_ne
  have hsame : ¬ a.sameEffect b = true := by
    rw [Edit.sameEffect_iff, ha, hb]
    simp only [rangeOf, Range.mk.injEq, Position.mk.injEq]
    omega
  rw [Edit.Compatible, or_iff_right hsame, Edit.Disjoint, ha, hb, le_def, le_def]
  simp only [rangeOf]
  omega

theorem compatible_span_call_iff (ha : a.range = subject.rangeOf span)
    (hcall : subject.Spans replacement.call)
    (hne : ¬ (span.first = replacement.call.line ∧ span.last = replacement.call.line)) :
    a.Compatible replacement.edit ↔ span.contains replacement.call.line = false := by
  have hlt := hcall.start_lt
  have hle := hcall.end_le
  have hsame : ¬ a.sameEffect replacement.edit = true := by
    rw [Edit.sameEffect_iff, ha]
    simp only [rangeOf, Replacement.edit, Range.mk.injEq, Position.mk.injEq]
    omega
  have heq : span.last = replacement.call.line →
      subject.lineEnd span.last = subject.lineEnd replacement.call.line := fun h => h ▸ rfl
  rw [Edit.Compatible, or_iff_right hsame, Edit.Disjoint, ha, le_def, le_def, Bool.eq_false_iff]
  simp only [rangeOf, Replacement.edit, LineSpan.contains, ne_eq, Bool.and_eq_true,
    decide_eq_true_eq]
  omega

end Subject

/-! ### The condition -/

/-- The line in front of which new imports go, unless that is the class head. -/
def importSeam (subject : Subject) (names : List String) : Option Nat :=
  let outline := subject.outline
  if (names.filter (!outline.hasImport ·)).isEmpty then none
  else match outline.lastImportLine with
    | some last => some (last + 1)
    | none =>
      if outline.decl.kind == .anonymousClass then some (outline.namespaceLine.getD 0 + 1) else none

/-- The line in front of which new properties go, unless that is the line behind the
class brace. -/
def fieldSeam (subject : Subject) (bindings : List Binding) : Option Nat :=
  let outline := subject.outline
  if (bindings.filter fun binding =>
      !binding.promoted && (outline.field? binding.field).isNone).isEmpty then none
  else match outline.traitUses.getLast? with
    | some traitUse => some (traitUse.last + 1)
    | none => (outline.fields.find? (!·.promoted)).map fun first =>
      memberStart subject first.line first.leadingLine

namespace Draft

/-- The line in front of which a new constructor goes that has a factory to follow. -/
def constructorSeam (draft : Draft) (outline : Outline) : Option Nat :=
  if draft.plan.constructor == .create && draft.plan.factory != .create then
    outline.factory.map (·.endLine + 1)
  else none

/-- The lines in front of which text is inserted that may fall into rewritten lines. -/
def seams (draft : Draft) (subject : Subject) (knownInterfaces : List String) : List Nat :=
  (importSeam subject (draft.importNames subject knownInterfaces)).toList ++
    (fieldSeam subject draft.bindings).toList ++ (draft.constructorSeam subject.outline).toList

/-- The lines that are rewritten as a whole: those of an extended constructor and of
an extended return statement. -/
def rewritten (draft : Draft) (outline : Outline) : List LineSpan :=
  (if draft.plan.constructor == .merge then
    outline.constructor.toList.map fun ctor => ⟨ctor.leadingLine, ctor.endLine⟩ else []) ++
    (if draft.plan.factory == .merge then (outline.factory.bind (·.returnSpan)).toList else [])

/-- Whether the edits of a draft keep clear of each other: rewritten lines do not
meet, no text is inserted between them, and no call on them is replaced. -/
structure Apart (draft : Draft) (subject : Subject) (knownInterfaces : List String) : Prop where
  spans : (draft.rewritten subject.outline).Pairwise fun a b => a.last < b.first ∨ b.last < a.first
  seams : ∀ seam ∈ draft.seams subject knownInterfaces, ∀ span ∈ draft.rewritten subject.outline,
    ¬ (span.first < seam ∧ seam ≤ span.last)
  calls : ∀ replacement ∈ draft.loose subject.outline,
    ∀ span ∈ draft.rewritten subject.outline, span.contains replacement.call.line = false

theorem apart_iff {draft : Draft} {subject : Subject} {knownInterfaces : List String} :
    draft.Apart subject knownInterfaces ↔
      ((draft.rewritten subject.outline).Pairwise fun a b =>
        a.last < b.first ∨ b.last < a.first) ∧
      (∀ seam ∈ draft.seams subject knownInterfaces, ∀ span ∈ draft.rewritten subject.outline,
        ¬ (span.first < seam ∧ seam ≤ span.last)) ∧
      ∀ replacement ∈ draft.loose subject.outline,
        ∀ span ∈ draft.rewritten subject.outline, span.contains replacement.call.line = false :=
  ⟨fun h => ⟨h.spans, h.seams, h.calls⟩, fun h => ⟨h.1, h.2.1, h.2.2⟩⟩

instance (draft : Draft) (subject : Subject) (knownInterfaces : List String) :
    Decidable (draft.Apart subject knownInterfaces) :=
  decidable_of_iff _ apart_iff.symm

end Draft

/-! ### Insertions and rewritten lines

`Covers` keeps of some edits what decides about overlaps: the rewritten lines and the seams. It goes
through appending, so each function that makes edits is opened once. -/

namespace Subject

variable {subject : Subject} {edit : Edit} {edits edits' : List Edit} {blocks blocks' : List LineSpan}
  {seam : Nat} {seams seams' : List Nat}

/-- Whether the replacements among some edits rewrite the lines `blocks`, and the
insertions go to `seams` or to the class head. -/
structure Covers (subject : Subject) (edits : List Edit) (blocks : List LineSpan)
    (seams : List Nat) : Prop where
  ranges_eq : (edits.filter (!·.isInsertion)).map (·.range) = blocks.map subject.rangeOf
  exists_edit : ∀ n ∈ seams, ∃ e ∈ edits, subject.AtSeam n e
  exists_seam : ∀ e ∈ edits, e.isInsertion = true →
    subject.InHead e ∨ ∃ n ∈ seams, subject.AtSeam n e

theorem Covers.nil (subject : Subject) : subject.Covers [] [] [] := ⟨rfl, nofun, nofun⟩

theorem Covers.append (h : subject.Covers edits blocks seams)
    (h' : subject.Covers edits' blocks' seams') :
    subject.Covers (edits ++ edits') (blocks ++ blocks') (seams ++ seams') := by
  refine ⟨?_, fun n hn => ?_, fun e he hinsertion => ?_⟩
  · rw [filter_append, map_append, map_append, h.ranges_eq, h'.ranges_eq]
  · rcases mem_append.mp hn with hn | hn
    · obtain ⟨e, he, hseam⟩ := h.exists_edit n hn
      exact ⟨e, mem_append_left _ he, hseam⟩
    · obtain ⟨e, he, hseam⟩ := h'.exists_edit n hn
      exact ⟨e, mem_append_right _ he, hseam⟩
  · rcases mem_append.mp he with he | he
    · exact (h.exists_seam e he hinsertion).imp_right fun ⟨n, hn, hseam⟩ =>
        ⟨n, mem_append_left _ hn, hseam⟩
    · exact (h'.exists_seam e he hinsertion).imp_right fun ⟨n, hn, hseam⟩ =>
        ⟨n, mem_append_right _ hn, hseam⟩

theorem Solid.covers (h : subject.Solid span) (hedit : edit.range = subject.rangeOf span) :
    subject.Covers [edit] [span] [] := by
  have hblock := h.not_isInsertion hedit
  exact ⟨by simp [hblock, hedit], nofun, by simp [hblock]⟩

theorem AtSeam.covers (h : subject.AtSeam seam edit) : subject.Covers [edit] [] [seam] :=
  ⟨by simp [h.isInsertion], by simpa using h, by simp [h]⟩

theorem InHead.covers (h : subject.InHead edit) : subject.Covers [edit] [] [] :=
  ⟨by simp [h.isInsertion], nofun, by simp [h]⟩

/-- Inserting at the end of a line is inserting in front of the next one. -/
theorem atSeam_lineEnd (subject : Subject) (description text : String) (line : Nat) :
    subject.AtSeam (line + 1) (.insert description line (subject.lineEnd line) text) :=
  .inr ⟨line, rfl, rfl⟩

theorem atSeam_lineStart (subject : Subject) (description text : String) (line : Nat) :
    subject.AtSeam line (.insert description line 0 text) :=
  .inl rfl

theorem importEdit_covers (hplaced : subject.outline.Placed subject.source) (names : List String) :
    subject.Covers (importEdit subject names).toList [] (importSeam subject names).toList := by
  simp only [importEdit, importSeam]
  split
  · exact .nil subject
  · cases subject.outline.lastImportLine with
    | some last => exact (subject.atSeam_lineEnd _ _ last).covers
    | none =>
      cases subject.outline.decl.kind == .anonymousClass with
      | true => exact (subject.atSeam_lineEnd _ _ _).covers
      | false => exact InHead.covers ⟨_, Nat.le_trans hplaced.leading_le hplaced.line_le, rfl⟩

theorem fieldEdit_covers (subject : Subject) (bindings : List Binding) :
    subject.Covers (fieldEdit subject bindings).toList [] (fieldSeam subject bindings).toList := by
  simp only [fieldEdit, fieldSeam]
  split
  · exact .nil subject
  · cases subject.outline.traitUses.getLast? with
    | some traitUse => exact (subject.atSeam_lineEnd _ _ traitUse.last).covers
    | none =>
      cases subject.outline.fields.find? (!·.promoted) with
      | some first => exact (subject.atSeam_lineStart _ _ _).covers
      | none => exact InHead.covers ⟨_, Nat.le_refl _, rfl⟩

theorem markerEdit_inHead {knownInterfaces : List String} {reserved : Reservations}
    {marked : Edit × Option String} (h : markerEdit subject knownInterfaces reserved = some marked) :
    subject.InHead marked.1 := by
  simp only [markerEdit, Option.bind_eq_bind, Option.bind_eq_some_iff] at h
  obtain ⟨_, -, line, hline, hmarked⟩ := h
  cases hmarked
  have hmem := mem_reverse.mp (mem_of_find?_eq_some hline)
  exact ⟨_, (Source.mem_span.mp hmem).2, rfl⟩

/-- A new method is inserted between lines, behind the line that it is to follow. -/
theorem methodEdit_atSeam (subject : Subject) (description : String) (after : Option Nat)
    (leads : Bool) (text : String) :
    ∃ seam, subject.AtSeam seam (methodEdit subject description after leads text) ∧
      ∀ line ∈ after, seam = line + 1 := by
  unfold methodEdit
  split
  · rename_i line
    exact ⟨line + 1, subject.atSeam_lineEnd _ _ line, fun _ h => Option.some.inj h ▸ rfl⟩
  · split
    · exact ⟨_, subject.atSeam_lineStart _ _ _, nofun⟩
    · exact ⟨_, subject.atSeam_lineStart _ _ _, nofun⟩

end Subject

/-! ### The wiring methods

Only the seam of a new constructor behind an old factory is left to the condition. The other new
methods go where the plan rewrites no line. -/

namespace Draft

variable {draft : Draft} {subject : Subject} {knownInterfaces : List String}

theorem solid_of_mem_rewritten (hplaced : subject.outline.Placed subject.source)
    (h : span ∈ draft.rewritten subject.outline) : subject.Solid span := by
  rcases mem_append.mp h with h | h
  · split at h
    · obtain ⟨ctor, hctor, rfl⟩ := mem_map.mp h
      have hctor := hplaced.constructor ctor (Option.mem_toList.mp hctor)
      exact ⟨hctor.brace_lt, Nat.le_trans hctor.leading_le hctor.start_le, hctor.leading_ne,
        hctor.end_ne⟩
    · cases h
  · split at h
    · obtain ⟨factory, hfactory, hspan⟩ := Option.bind_eq_some_iff.mp (Option.mem_toList.mp h)
      have hfactory := hplaced.factory factory hfactory
      obtain ⟨hopen, -, hle, hfirst, hlast⟩ := hfactory.return_le span hspan
      have hlt := hfactory.brace_lt
      have hstart := hfactory.start_le
      exact ⟨by omega, hle, hfirst, hlast⟩
    · cases h

/-- A new factory follows the constructor, if there is one. -/
theorem factoryEdit_create {plan : MethodPlan} {wiring : ExistingWiring} {containerType : String}
    {bindings : List Binding} {factory : Option Edit} (hcreate : plan.factory = .create)
    (h : factoryEdit subject plan wiring containerType bindings = .ok factory) :
    ∃ text, factory = some (methodEdit subject "Add create() factory"
      (if plan.constructor != .create then subject.outline.constructor.map (·.endLine) else none)
      (plan.constructor != .create) text) := by
  simp only [factoryEdit, hcreate, bind, Except.bind] at h
  split at h
  · cases h
  · exact ⟨_, (Except.ok.inj h).symm⟩

/-- The edits of the wiring methods rewrite the lines of `rewritten`, and insert text
at the seam of the constructor or at seams that keep clear of those lines. -/
theorem covers_of_aligns (hplaced : subject.outline.Placed subject.source) {leading : List String}
    (haligns : draft.plan.Aligns subject.outline leading) {containerType : String}
    {factory : Option Edit} {patches : List Replacement}
    (hfactory : factoryEdit subject draft.plan draft.wiring containerType draft.bindings =
      .ok factory) :
    ∃ seams, subject.Covers
        ((constructorEdit subject draft.plan draft.bindings patches).toList ++ factory.toList)
        (draft.rewritten subject.outline) seams ∧
      (∀ n ∈ (draft.constructorSeam subject.outline).toList, n ∈ seams) ∧
      ∀ n ∈ seams, n ∈ (draft.constructorSeam subject.outline).toList ∨
        ∀ span ∈ draft.rewritten subject.outline, ¬ (span.first < n ∧ n ≤ span.last) := by
  have hsolid : ∀ {span}, span ∈ draft.rewritten subject.outline → subject.Solid span :=
    solid_of_mem_rewritten hplaced
  generalize hplan : draft.plan = plan at haligns hfactory
  cases haligns with
  | create hctor hnone =>
    obtain ⟨text, rfl⟩ := factoryEdit_create rfl hfactory
    rw [show draft.rewritten subject.outline = [] by simp [rewritten, hplan]]
    obtain ⟨m, hm, -⟩ := subject.methodEdit_atSeam "Add constructor" none true _
    obtain ⟨n, hn, -⟩ := subject.methodEdit_atSeam "Add create() factory" none false text
    exact ⟨[m, n], hm.covers.append hn.covers, by simp [constructorSeam, hplan], by simp⟩
  | @extendConstructor ctor hctor hnone =>
    obtain ⟨text, rfl⟩ := factoryEdit_create rfl hfactory
    have hone : draft.rewritten subject.outline = [⟨ctor.leadingLine, ctor.endLine⟩] := by
      simp [rewritten, hplan, hctor]
    rw [hone] at hsolid ⊢
    simp only [constructorEdit, hctor]
    obtain ⟨n, hn, hafter⟩ := subject.methodEdit_atSeam "Add create() factory"
      (some ctor.endLine) true text
    refine ⟨[n], ((hsolid (.head _)).covers rfl).append hn.covers, by simp [constructorSeam, hplan],
      fun k hk => .inr fun span hspan => ?_⟩
    rw [mem_singleton.mp hk, mem_singleton.mp hspan, hafter _ rfl]
    dsimp only
    omega
  | @extendFactory found hsome _ _ returnLine hshape =>
    rw [show draft.rewritten subject.outline = [] by
      simp [rewritten, hplan, hsome, Factory.returnSpan, hshape]]
    simp only [factoryEdit, hsome, Option.bind_some, mergedFactory, hshape] at hfactory
    cases hfactory
    exact ⟨[returnLine], (subject.atSeam_lineStart _ _ returnLine).covers,
      by simp [constructorSeam, hplan], by simp⟩
  | @extendBoth ctor found hctor hsome _ _ _ returnLine returnEndLine hshape =>
    have htwo : draft.rewritten subject.outline =
        [⟨ctor.leadingLine, ctor.endLine⟩, ⟨returnLine, returnEndLine⟩] := by
      simp [rewritten, hplan, hctor, hsome, Factory.returnSpan, hshape]
    rw [htwo] at hsolid ⊢
    simp only [factoryEdit, hsome, Option.bind_some, mergedFactory, hshape] at hfactory
    cases hfactory
    simp only [constructorEdit, hctor]
    exact ⟨[], ((hsolid (.head _)).covers rfl).append ((hsolid (.tail _ (.head _))).covers rfl),
      by simp [constructorSeam, hplan], by simp⟩
  | @addConstructor found hctor hsome _ _ returnLine returnEndLine hshape =>
    have hone : draft.rewritten subject.outline = [⟨returnLine, returnEndLine⟩] := by
      simp [rewritten, hplan, hsome, Factory.returnSpan, hshape]
    rw [hone] at hsolid ⊢
    simp only [factoryEdit, hsome, Option.bind_some, mergedFactory, hshape] at hfactory
    cases hfactory
    have hseam : draft.constructorSeam subject.outline = some (found.endLine + 1) := by
      simp [constructorSeam, hplan, hsome]
    obtain ⟨n, hn, hafter⟩ := subject.methodEdit_atSeam "Add constructor"
      (subject.outline.factory.map (·.endLine)) true
      (Render.freshConstructor subject.style subject.outline.decl.name subject.conventions
        draft.bindings)
    obtain rfl : n = found.endLine + 1 := hafter _ (by rw [hsome]; rfl)
    rw [hseam]
    exact ⟨_, hn.covers.append ((hsolid (.head _)).covers rfl), fun _ h => h, fun _ => .inl⟩

/-! ### Replaced calls

Calls are found in order, so no two of them overlap. One on a line of an extended constructor is
part of the new text of that constructor, and one in the factory, which is static, stays. -/

theorem replacementOf_spec {outline : Outline} {wiring : ExistingWiring} {bindings : List Binding}
    {call : StaticCall} (h : replacementOf outline wiring bindings call = some replacement) :
    replacement.call = call ∧ outline.staticMethodAt? call.line = none := by
  unfold replacementOf at h
  split at h
  · cases h
  · rename_i hstatic
    obtain ⟨receiver, -, hreplacement⟩ := Option.map_eq_some_iff.mp h
    refine ⟨?_, by simpa using hstatic⟩
    rw [← hreplacement]
    split <;> rfl

/-- A list of replacements takes the calls in their order. -/
theorem map_call_sublist (outline : Outline) (wiring : ExistingWiring) (bindings : List Binding)
    (calls : List StaticCall) :
    ((calls.filterMap (replacementOf outline wiring bindings)).map (·.call)).Sublist calls := by
  induction calls with
  | nil => exact .slnil
  | cons call rest ih =>
    cases hcall : replacementOf outline wiring bindings call with
    | none =>
      rw [filterMap_cons_none hcall]
      exact ih.cons call
    | some replacement =>
      rw [filterMap_cons_some hcall, map_cons, (replacementOf_spec hcall).1]
      exact ih.cons_cons call

/-- What a draft says about the class and its calls. -/
structure Fits (draft : Draft) (subject : Subject) : Prop where
  aligns : draft.bindings ≠ [] → draft.plan.Aligns subject.outline
    (subject.conventions.leadingParams.map (·.expression))
  keep : draft.bindings.isEmpty = true → draft.plan = ⟨.keep, .keep⟩
  calls : (draft.replacements.map (·.call)).Sublist subject.calls
  static : ∀ replacement ∈ draft.replacements,
    subject.outline.staticMethodAt? replacement.call.line = none

theorem fits_of {knowledge : Knowledge} {services : List String}
    (h : Draft.of knowledge services subject = .ok draft) : draft.Fits subject := by
  obtain ⟨-, -, hreplacements, hplan⟩ := parts_of h
  refine ⟨fun hbindings => ?_, fun hempty => ?_, ?_, ?_⟩
  · rw [if_neg (by simpa using hbindings)] at hplan
    exact planMethods_aligns hplan
  · rwa [if_pos hempty] at hplan
  · rw [hreplacements]
    exact (map_call_sublist _ _ _ _).trans filter_sublist
  · intro replacement hmem
    rw [hreplacements] at hmem
    obtain ⟨call, -, hsome⟩ := mem_filterMap.mp hmem
    obtain ⟨rfl, hstatic⟩ := replacementOf_spec hsome
    exact hstatic

/-- Replaced calls lie on lines of the class body, in order. -/
theorem Fits.spans (hfits : draft.Fits subject) :
    ∀ replacement ∈ draft.replacements, subject.Spans replacement.call := by
  intro replacement hmem
  have hcall := hfits.calls.subset (mem_map_of_mem hmem)
  obtain ⟨hdetected, hbody⟩ := mem_filter.mp hcall
  obtain ⟨-, line, hline, hfound⟩ := StaticCall.found_of_mem_detectLines hdetected
  obtain ⟨hlt, hle⟩ := hfound.columns
  refine ⟨?_, hlt, ?_⟩
  · simp only [Bool.and_eq_true, Outline.bodyContains, decide_eq_true_eq] at hbody
    exact hbody.1.1
  · rw [Subject.lineEnd, Source.raw, Source.line, getD_eq_getElem?_getD,
      show subject.source.lines[replacement.call.line]? = some line from hline]
    exact hle

theorem Fits.pairwise (hfits : draft.Fits subject) (hsource : subject.source = Source.ofText text) :
    draft.replacements.Pairwise fun a b => a.edit.Disjoint b.edit := by
  have hdetected : (StaticCall.detect subject.source).Pairwise StaticCall.Before :=
    hsource ▸ StaticCall.pairwise_detect text
  have hcalls := hdetected.sublist (hfits.calls.trans filter_sublist)
  rw [pairwise_map] at hcalls
  refine hcalls.imp fun hbefore => .inl ?_
  rw [le_def]
  exact hbefore

/-- No replaced call of its own covers the lines of a rewritten span. -/
theorem Fits.not_covers (hfits : draft.Fits subject)
    (hplaced : subject.outline.Placed subject.source)
    (hloose : replacement ∈ draft.loose subject.outline)
    (hspan : span ∈ draft.rewritten subject.outline) :
    ¬ (span.first = replacement.call.line ∧ span.last = replacement.call.line) := by
  rintro ⟨hfirst, hlast⟩
  obtain ⟨hmem, hpatch⟩ := mem_filter.mp hloose
  rcases mem_append.mp hspan with hspan | hspan
  · -- A call on a line of the constructor would be a patch.
    split at hspan
    · rename_i hmerge
      obtain ⟨ctor, hctor, rfl⟩ := mem_map.mp hspan
      have hctor := Option.mem_toList.mp hctor
      have hle := (hplaced.constructor ctor hctor).start_le
      have hnot : replacement.call.line < ctor.startLine ∨ ctor.endLine < replacement.call.line := by
        simpa [isPatch, Outline.inConstructor, Option.mem_def.mp hctor, hmerge] using hpatch
      dsimp only at hlast
      omega
    · cases hspan
  · -- A call on a line of the factory is not replaced.
    split at hspan
    · obtain ⟨factory, hfactory, hreturn⟩ :=
        Option.bind_eq_some_iff.mp (Option.mem_toList.mp hspan)
      have hpos := hplaced.factory factory hfactory
      obtain ⟨hopen, hend, -⟩ := hpos.return_le span hreturn
      have hstart := hpos.start_le
      obtain ⟨method, hmethod, hstatic, hlines⟩ := hplaced.static factory hfactory
      have hnone := find?_eq_none.mp (hfits.static replacement hmem) method hmethod
      simp only [hstatic, hlines, LineSpan.contains, Bool.true_and, Bool.and_eq_true,
        decide_eq_true_eq] at hnone
      omega
    · cases hspan

/-- Rewritten lines start on different lines. -/
theorem pairwise_rewritten (hplaced : subject.outline.Placed subject.source) :
    (draft.rewritten subject.outline).Pairwise fun a b => a.first ≠ b.first := by
  refine pairwise_append.mpr ⟨?_, ?_, ?_⟩
  · cases subject.outline.constructor <;> split <;> simp
  · cases subject.outline.factory.bind (·.returnSpan) <;> split <;> simp
  · intro a ha b hb
    split at ha
    · split at hb
      · obtain ⟨ctor, hctor, rfl⟩ := mem_map.mp ha
        have hctor := Option.mem_toList.mp hctor
        obtain ⟨factory, hfactory, hreturn⟩ :=
          Option.bind_eq_some_iff.mp (Option.mem_toList.mp hb)
        have hpos := hplaced.factory factory hfactory
        obtain ⟨hopen, hend, -⟩ := hpos.return_le b hreturn
        have hstart := hpos.start_le
        have hctorPos := hplaced.constructor ctor hctor
        have hleading := hctorPos.leading_le
        have hctorEnd := hctorPos.start_le
        have hapart := hplaced.apart ctor hctor factory hfactory
        dsimp only
        omega
      · cases hb
    · cases ha

/-! ### All edits -/

/-- Edits that rewrite lines are compatible exactly if the lines do not meet. -/
theorem pairwise_blocks_iff {blocks : List Edit} {spans : List LineSpan}
    (hranges : blocks.map (·.range) = spans.map subject.rangeOf)
    (hsolid : ∀ span ∈ spans, subject.Solid span)
    (hne : spans.Pairwise fun a b => a.first ≠ b.first) :
    blocks.Pairwise Edit.Compatible ↔
      spans.Pairwise fun a b => a.last < b.first ∨ b.last < a.first := by
  induction blocks generalizing spans with
  | nil =>
    obtain rfl := map_eq_nil_iff.mp hranges.symm
    simp
  | cons block blocks ih =>
    cases spans with
    | nil => cases hranges
    | cons span spans =>
      obtain ⟨hrange, hranges⟩ := cons.inj hranges
      obtain ⟨hhead, hne⟩ := pairwise_cons.mp hne
      have hpair : ∀ {other block'}, other ∈ spans → block'.range = subject.rangeOf other →
          (block.Compatible block' ↔ span.last < other.first ∨ other.last < span.first) :=
        fun hother hrange' => Subject.compatible_spans_iff hrange hrange'
          (hsolid span (.head _)) (hsolid _ (.tail _ hother)) (hhead _ hother)
      rw [pairwise_cons, pairwise_cons,
        ih hranges (fun other h => hsolid other (.tail _ h)) hne]
      refine and_congr_left fun _ => ⟨fun h other hother => ?_, fun h block' hblock => ?_⟩
      · have hmem : subject.rangeOf other ∈ blocks.map (·.range) :=
          hranges ▸ mem_map_of_mem hother
        obtain ⟨block', hblock, hrange'⟩ := mem_map.mp hmem
        exact (hpair hother hrange').mp (h block' hblock)
      · have hmem : block'.range ∈ spans.map subject.rangeOf :=
          hranges ▸ mem_map_of_mem hblock
        obtain ⟨other, hother, hrange'⟩ := mem_map.mp hmem
        exact (hpair hother hrange'.symm).mpr (h other hother)

/-- Whether edits rewrite the lines of `rewritten`, and insert text at the seams of a draft, in
the class head, or elsewhere outside those lines. -/
def Wired (draft : Draft) (subject : Subject) (knownInterfaces : List String) (edits : List Edit) :
    Prop :=
  ∃ seams, subject.Covers edits (draft.rewritten subject.outline) seams ∧
    (∀ n ∈ draft.seams subject knownInterfaces, n ∈ seams) ∧
    ∀ n ∈ seams, n ∈ draft.seams subject knownInterfaces ∨
      ∀ span ∈ draft.rewritten subject.outline, ¬ (span.first < n ∧ n ≤ span.last)

theorem wired_of_factoryEdit (hplaced : subject.outline.Placed subject.source)
    {leading : List String} (haligns : draft.plan.Aligns subject.outline leading)
    {factory : Option Edit} (hfactory : factoryEdit subject draft.plan draft.wiring
      (draft.containerType subject.outline).1.text draft.bindings = .ok factory) :
    draft.Wired subject knownInterfaces (draft.wired subject knownInterfaces factory) := by
  obtain ⟨others, hcovers, hctor, hothers⟩ := covers_of_aligns hplaced haligns hfactory
  have himport := Subject.importEdit_covers hplaced (draft.importNames subject knownInterfaces)
  have hfield := subject.fieldEdit_covers draft.bindings
  have hmarker : subject.Covers ((draft.marker subject knownInterfaces).map (·.1)).toList [] [] := by
    cases hmarked : draft.marker subject knownInterfaces with
    | none => exact .nil subject
    | some marked =>
      unfold marker at hmarked
      split at hmarked
      · exact (Subject.markerEdit_inHead hmarked).covers
      · cases hmarked
  rw [wired, append_assoc]
  refine ⟨_, ((himport.append hmarker).append hfield).append hcovers, fun n hn => ?_, fun n hn => ?_⟩
  · simp only [seams, append_nil, mem_append] at hn ⊢
    exact hn.imp_right (hctor n)
  · simp only [seams, append_nil, mem_append] at hn ⊢
    exact hn.elim (fun hn => .inl (.inl hn)) fun hn => (hothers n hn).imp_left .inr

/-- Wiring edits together with the replaced calls are compatible exactly if the draft
keeps them apart. -/
theorem pairwise_compatible_iff (hplaced : subject.outline.Placed subject.source)
    (hfits : draft.Fits subject) (hsource : subject.source = Source.ofText text)
    (hwired : draft.Wired subject knownInterfaces edits) :
    (edits ++ (draft.loose subject.outline).map (·.edit)).Pairwise Edit.Compatible ↔
      draft.Apart subject knownInterfaces := by
  obtain ⟨seams, hcovers, hseam, hclear⟩ := hwired
  have hspans : ∀ r ∈ draft.loose subject.outline, subject.Spans r.call := fun r hr =>
    hfits.spans r (mem_filter.mp hr).1
  have hsolid : ∀ span ∈ draft.rewritten subject.outline, subject.Solid span := fun _ h =>
    solid_of_mem_rewritten hplaced h
  have hloose : ((draft.loose subject.outline).map (·.edit)).Pairwise Edit.Compatible := by
    rw [pairwise_map]
    exact ((hfits.pairwise hsource).sublist filter_sublist).imp .inr
  have hall : ∀ e ∈ (draft.loose subject.outline).map (·.edit), (!e.isInsertion) = true := by
    intro e he
    obtain ⟨r, hr, rfl⟩ := mem_map.mp he
    simp [(hspans r hr).not_isInsertion]
  have hnone : ((draft.loose subject.outline).map (·.edit)).filter (·.isInsertion) = [] :=
    filter_eq_nil_iff.mpr fun e he => by simpa using hall e he
  rw [Edit.pairwise_iff, filter_append, filter_append, hnone, filter_eq_self.mpr hall, append_nil,
    pairwise_append, pairwise_blocks_iff hcovers.ranges_eq hsolid (pairwise_rewritten hplaced),
    apart_iff]
  have hblock : ∀ b ∈ edits.filter (!·.isInsertion), ∃ span ∈ draft.rewritten subject.outline,
      b.range = subject.rangeOf span := fun b hb => by
    have hmem : b.range ∈ (draft.rewritten subject.outline).map subject.rangeOf :=
      hcovers.ranges_eq ▸ mem_map_of_mem hb
    obtain ⟨span, hspan, hrange⟩ := mem_map.mp hmem
    exact ⟨span, hspan, hrange.symm⟩
  have hspan : ∀ span ∈ draft.rewritten subject.outline, ∃ b ∈ edits.filter (!·.isInsertion),
      b.range = subject.rangeOf span := fun span hspan => by
    have hmem : subject.rangeOf span ∈ (edits.filter (!·.isInsertion)).map (·.range) :=
      hcovers.ranges_eq ▸ mem_map_of_mem hspan
    exact mem_map.mp hmem
  constructor
  · rintro ⟨hmixed, hblocks, -, hcalls⟩
    refine ⟨hblocks, fun n hn span hmem => ?_, fun r hr span hmem => ?_⟩
    · obtain ⟨e, he, hseam⟩ := hcovers.exists_edit n (hseam n hn)
      obtain ⟨b, hb, hrange⟩ := hspan span hmem
      exact (Subject.compatible_seam_iff hseam hrange (hsolid span hmem)).mp
        (hmixed e (mem_filter.mpr ⟨he, hseam.isInsertion⟩) b (mem_append_left _ hb))
    · obtain ⟨b, hb, hrange⟩ := hspan span hmem
      exact (Subject.compatible_span_call_iff hrange (hspans r hr)
        (hfits.not_covers hplaced hr hmem)).mp (hcalls b hb _ (mem_map_of_mem hr))
  · rintro ⟨hblocks, hseams, hcalls⟩
    refine ⟨fun e he b hb => ?_, hblocks, hloose, fun b hb e he => ?_⟩
    · obtain ⟨hedit, hins⟩ := mem_filter.mp he
      rcases mem_append.mp hb with hb | hb
      · obtain ⟨span, hmem, hrange⟩ := hblock b hb
        rcases hcovers.exists_seam e hedit hins with hhead | ⟨n, hn, hseam⟩
        · exact Subject.compatible_head hhead hrange (hsolid span hmem)
        · rw [Subject.compatible_seam_iff hseam hrange (hsolid span hmem)]
          exact (hclear n hn).elim (fun hn => hseams n hn span hmem) fun hclear => hclear span hmem
      · obtain ⟨r, hr, rfl⟩ := mem_map.mp hb
        rcases hcovers.exists_seam e hedit hins with hhead | ⟨n, -, hseam⟩
        · exact Subject.compatible_head_call hhead (hspans r hr)
        · exact Subject.compatible_seam_call hseam (hspans r hr)
    · obtain ⟨span, hmem, hrange⟩ := hblock b hb
      obtain ⟨r, hr, rfl⟩ := mem_map.mp he
      exact (Subject.compatible_span_call_iff hrange (hspans r hr)
        (hfits.not_covers hplaced hr hmem)).mpr (hcalls r hr span hmem)

theorem pairwise_edits_iff (hplaced : subject.outline.Placed subject.source)
    (hfits : draft.Fits subject) (hsource : subject.source = Source.ofText text)
    (h : draft.edits subject knownInterfaces = .ok edits) :
    edits.Pairwise Edit.Compatible ↔ draft.Apart subject knownInterfaces := by
  rw [edits_eq_ok_iff] at h
  split at h
  · rename_i hbindings
    subst h
    have hkeep := hfits.keep (isEmpty_iff.mpr hbindings)
    have hwired : draft.Wired subject knownInterfaces [] := by
      refine ⟨[], ?_, ?_, nofun⟩
      · simpa [rewritten, hkeep] using Subject.Covers.nil subject
      · simp [seams, importNames, containerType, marker, hkeep, hbindings, importSeam,
          fieldSeam, constructorSeam]
    exact pairwise_compatible_iff hplaced hfits hsource hwired
  · rename_i hbindings
    obtain ⟨factory, hfactory, rfl⟩ := h
    exact pairwise_compatible_iff hplaced hfits hsource
      (wired_of_factoryEdit hplaced (hfits.aligns hbindings) hfactory)

end Draft

/-! ### Refactorings -/

/-- **Overlapping edits.** The edits of a refactoring overlap in no place exactly if
the lines that it rewrites do not meet, no import, property or constructor is inserted
between them, and no call on them is replaced for itself. -/
theorem refactor_pairwise_disjoint_iff {knowledge : Knowledge} {request : Request} {batch : Batch}
    (h : refactor knowledge request = .ok batch) :
    ∃ subject draft, request.subject knowledge.options = .ok subject ∧
      Draft.of knowledge request.services subject = .ok draft ∧
      (batch.edits.Pairwise Edit.Disjoint ↔ draft.Apart subject request.knownInterfaces) := by
  obtain ⟨subject, draft, edits, hsubject, hdraft, hedits, -, rfl⟩ := refactor_eq_ok_iff.mp h
  obtain ⟨hsource, n, houtline⟩ := Request.subject_spec hsubject
  refine ⟨subject, draft, hsubject, hdraft, ?_⟩
  rw [Batch.pairwise_assemble_iff, Draft.pairwise_edits_iff (Outline.placed_ofDeclaration houtline)
    (Draft.fits_of hdraft) hsource hedits]

/-- A class whose constructor ends with a comment on the line of its brace, in front of
the first property. -/
def commentedConstructor : Request where
  text := "<?php
class Page extends ControllerBase \x7b
  public function __construct() \x7b
    $this->count = 1;
  \x7d /* end of constructor */
  protected $count;
  public function build() \x7b
    return \\Drupal::service('renderer');
  \x7d
\x7d
"
  role := .baseClass
  services := ["renderer"]

/-- The comment behind the constructor counts as the start of the property, so the new
property is inserted into the lines of the constructor. -/
theorem overlap_commentedConstructor :
    ∃ batch subject draft, refactor { directory := {} } commentedConstructor = .ok batch ∧
      commentedConstructor.subject {} = .ok subject ∧
      Draft.of { directory := {} } ["renderer"] subject = .ok draft ∧
      ¬ batch.edits.Pairwise Edit.Disjoint ∧ ¬ draft.Apart subject [] := by
  have hrun : (refactor { directory := {} } commentedConstructor).isOk = true := by decide +kernel
  have hlines : (commentedConstructor.subject {}).toOption.any (fun subject =>
      (Draft.of { directory := {} } ["renderer"] subject).toOption.any fun draft =>
        draft.rewritten subject.outline = [⟨2, 4⟩] ∧
          fieldSeam subject draft.bindings = some 4) = true := by decide +kernel
  cases hbatch : refactor { directory := {} } commentedConstructor with
  | error e => simp [hbatch, Except.isOk, Except.toBool] at hrun
  | ok batch =>
    obtain ⟨subject, draft, hsubject, hdraft, hiff⟩ := refactor_pairwise_disjoint_iff hbatch
    have hnot : ¬ draft.Apart subject [] := by
      rw [hsubject] at hlines
      simp only [Except.toOption, Option.any_some] at hlines
      rw [show Draft.of { directory := {} } ["renderer"] subject = .ok draft from hdraft] at hlines
      obtain ⟨hspan, hseam⟩ : draft.rewritten subject.outline = [⟨2, 4⟩] ∧
          fieldSeam subject draft.bindings = some 4 := by simpa [Except.toOption] using hlines
      intro hapart
      have hmem : 4 ∈ draft.seams subject [] := by simp [Draft.seams, hseam]
      exact hapart.seams 4 hmem ⟨2, 4⟩ (by simp [hspan]) (by decide)
    exact ⟨batch, subject, draft, rfl, hsubject, hdraft, fun h => hnot (hiff.mp h), hnot⟩

end ServiceInjection

import ServiceInjection.Proofs.Edit.Turns
import ServiceInjection.Proofs.Refactor.ImportsOnce

/-!
# Refactor.LineEdits

Edits that work on whole lines. The range of an edit is given by line numbers and by the width
of a line, and here it is tied to the text: where the lines of the source are known, an edit
replaces some of them (`Subject.turns_lines`) or puts new ones between two of them
(`Subject.Inserts.turns`). Properties and imports are inserted, at the start of a line or at the
end of the one before, depending on what the class has already. Either way the text becomes the
same lines with the new ones in between, and the new lines are members of the class
(`fieldEdit_inserts`) or stand closed above it (`importEdit_inserts`).
-/

namespace ServiceInjection

open Text List Position Batch

variable {subject : Subject} {edit : Edit} {before front ls new rest : List (List Char)}
  {back : List Char} {line : Nat}

/-- Text that is inserted in front of a piece. -/
theorem Batch.Turns.insert {before old new : List Char} {edits : List Edit}
    (h : Turns before edits old new) (hreturn : '\r' ∉ before) (hne : old ≠ [])
    (hrange : edit.range = ⟨behind before, behind before⟩)
    (hlt : ∀ other ∈ edits, behind before < other.range.start) :
    Turns before (edit :: edits) old (edit.text.toList ++ new) where
  apply rest := by
    have hlast : before.getLast? ≠ some '\r' := fun heq => hreturn (mem_of_getLast? heq)
    have hstart : edit.range.start = behind before := by rw [hrange]
    have hstop : edit.range.stop = behind (before ++ []) := by rw [hrange, append_nil]
    have happly := applyEdit_of_prefix (new ++ rest) hstart hstop hlast (by rwa [append_nil])
    rw [append_nil, append_assoc] at happly
    rw [foldr_cons, h.apply, append_assoc, happly]
  starts := pairwise_cons.mpr ⟨fun other hother => by rw [hrange]; exact hlt other hother, h.starts⟩
  within := by
    refine forall_mem_cons.mpr ⟨?_, h.within⟩
    rw [hrange]
    exact ⟨le_refl _, behind_lt_append hne⟩

/-! ### Edits of whole lines -/

namespace Subject

/-- The range of lines that stand behind others. -/
theorem rangeOf_written (hsource : subject.source = .written (front ++ (ls ++ rest))) (hne : ls ≠ [])
    (hlines : ∀ line ∈ front ++ ls, '\n' ∉ line) :
    subject.rangeOf ⟨front.length, front.length + ls.length - 1⟩ =
      ⟨behind (unlines front), behind (unlines front ++ joined ls)⟩ := by
  obtain ⟨init, last, rfl⟩ := (eq_nil_or_concat' ls).resolve_left hne
  obtain ⟨hfront, hinit⟩ := forall_mem_append.mp hlines
  obtain ⟨hinit, hlast⟩ := forall_mem_append.mp hinit
  have hstart := @behind_unlines front [] hfront nofun
  have hstop := @behind_unlines (front ++ init) last (forall_mem_append.mpr ⟨hfront, hinit⟩)
    (hlast last mem_cons_self)
  have hraw : subject.source.raw (front.length + init.length) = last := by
    rw [hsource]
    exact Source.raw_written (by simp)
  rw [append_nil] at hstart
  rw [unlines_append, length_append, append_assoc] at hstop
  rw [joined_append (by simp), joined_singleton, hstart, hstop, rangeOf, length_append,
    length_singleton, ← Nat.add_assoc, Nat.add_sub_cancel]
  exact congrArg (fun n => Range.mk _ ⟨_, width16 n⟩) hraw

/-- An edit that replaces lines. -/
theorem turns_lines (hsource : subject.source = .written (before ++ (front ++ (ls ++ rest)))) (hne : ls ≠ [])
    (hlines : ∀ line ∈ before ++ (front ++ ls), '\n' ∉ line)
    (hreturn : '\r' ∉ unlines (before ++ (front ++ ls)))
    (hrange : edit.range = subject.rangeOf ⟨before.length + front.length,
      before.length + front.length + ls.length - 1⟩) :
    Turns (unlines before) [edit] (unlines front ++ (unlines ls ++ back))
      (unlines front ++ (edit.text.toList ++ '\n' :: back)) := by
  rw [← append_assoc] at hsource hlines
  rw [← length_append, rangeOf_written hsource hne hlines, unlines_append, append_assoc] at hrange
  simp only [unlines_append, unlines_eq_joined hne, ← append_assoc, mem_append, not_or] at hreturn
  rw [unlines_eq_joined hne, append_assoc]
  refine .of_edit (by simpa [and_assoc] using hreturn.1) (by simp) ?_ ?_
  · rw [hrange]
  · rw [hrange]

/-- Whether an edit inserts lines in front of line `seam`, at the start of that line or at the end
of the one before. -/
inductive Inserts (subject : Subject) (edit : Edit) (new : List (List Char)) : Nat → Prop
  | lineStart {seam : Nat} : edit.range = ⟨⟨seam, 0⟩, ⟨seam, 0⟩⟩ → edit.text.toList = unlines new →
      Inserts subject edit new seam
  | lineEnd {line : Nat} :
      edit.range = ⟨⟨line, subject.lineEnd line⟩, ⟨line, subject.lineEnd line⟩⟩ →
      edit.text.toList ++ ['\n'] = '\n' :: unlines new → Inserts subject edit new (line + 1)

theorem turns_lineEnd (hsource : subject.source = .written (before ++ (front ++ rest))) (hne : front ≠ [])
    (hlines : ∀ line ∈ before ++ front, '\n' ∉ line) (hreturn : '\r' ∉ unlines (before ++ front))
    (hline : line + 1 = before.length + front.length)
    (hrange : edit.range = ⟨⟨line, subject.lineEnd line⟩, ⟨line, subject.lineEnd line⟩⟩)
    (htext : edit.text.toList ++ ['\n'] = '\n' :: unlines new) :
    Turns (unlines before) [edit] (unlines front) (unlines front ++ unlines new) := by
  have hstop := congrArg Range.stop (rangeOf_written hsource hne hlines)
  rw [← hline, Nat.add_sub_cancel] at hstop
  have hposition : edit.range = ⟨behind (unlines before ++ joined front),
      behind (unlines before ++ joined front)⟩ := hrange.trans (congrArg (fun p => Range.mk p p) hstop)
  simp only [unlines_append, unlines_eq_joined hne, mem_append, not_or] at hreturn
  have hturns := @Turns.of_edit (unlines before) (joined front) [] ['\n'] edit
    (by simpa using ⟨hreturn.1, hreturn.2.1⟩) (by simp) (by rw [hposition])
    (by rw [hposition, append_nil])
  rw [htext] at hturns
  rw [unlines_eq_joined hne]
  simpa using hturns

/-- Lines that are inserted between others. -/
theorem Inserts.turns {old new' : List Char} {edits : List Edit}
    (h : subject.Inserts edit new (before.length + front.length))
    (hsource : subject.source = .written (before ++ (front ++ rest)))
    (hlines : ∀ line ∈ before ++ front, '\n' ∉ line) (hreturn : '\r' ∉ unlines (before ++ front))
    (hle : before.length ≤ edit.range.start.line) (hne : old ≠ [])
    (hlt : ∀ other ∈ edits, (⟨before.length + front.length, 0⟩ : Position) < other.range.start)
    (hturns : Turns (unlines before ++ unlines front) edits old new') :
    Turns (unlines before) (edit :: edits) (unlines front ++ old)
      (unlines front ++ (unlines new ++ new')) := by
  generalize hseam : before.length + front.length = seam at h hlt
  cases h with
  | lineStart hrange htext =>
    have hposition := @behind_unlines (before ++ front) [] hlines nofun
    rw [append_nil, unlines_append, length_append, hseam] at hposition
    rw [unlines_append] at hreturn
    rw [← htext]
    refine (Turns.kept _ _).append (hturns.insert hreturn hne ?_ ?_)
    · rw [hposition, hrange]
      rfl
    · rw [hposition]
      exact hlt
  | @lineEnd line hrange htext =>
    have hne : front ≠ [] := by
      rintro rfl
      rw [hrange] at hle
      exact absurd hseam (Nat.ne_of_lt (Nat.lt_succ_of_le hle))
    rw [← append_assoc (unlines front)]
    exact (turns_lineEnd hsource hne hlines hreturn hseam.symm hrange htext).append hturns

end Subject

/-! ### Properties -/

/-- Lines that declare members, but neither a constructor nor a factory. -/
def DeclaresOthers (ls : List (List Char)) : Prop :=
  ∃ added, Declares ls added ∧ added.constructor = none ∧ added.factory = none

theorem DeclaresOthers.append (h : DeclaresOthers front) (h' : DeclaresOthers ls) :
    DeclaresOthers (front ++ ls) := by
  obtain ⟨added, hadded, hctor, hfactory⟩ := h
  obtain ⟨added', hadded', hctor', hfactory'⟩ := h'
  exact ⟨_, hadded.append hadded', by simp [Members.append_def, Members.moved, hctor, hctor'],
    by simp [Members.append_def, Members.moved, hfactory, hfactory']⟩

theorem DeclaresOthers.blank : DeclaresOthers [[]] := ⟨{}, .blank nofun nofun, rfl, rfl⟩

/-- New properties are lines that are inserted in front of one of the class. -/
theorem fieldEdit_inserts {bindings : List Binding} (hstyle : subject.style.Writable)
    (hwritable : ∀ binding ∈ bindings, binding.promoted = false → binding.Writable)
    (h : fieldEdit subject bindings = some edit) :
    ∃ new, DeclaresOthers new ∧
      subject.Inserts edit new ((fieldSeam subject bindings).getD (subject.outline.decl.openBraceLine + 1)) ∧
      (fieldSeam subject bindings = none → edit.range.start.line = subject.outline.decl.openBraceLine) := by
  simp only [fieldEdit] at h
  simp only [fieldSeam]
  split at h
  · cases h
  rename_i hne
  rw [if_neg hne]
  obtain ⟨added, ⟨⟨ls, hls, htext, hdeclares⟩, -⟩, hctor, hfactory, -⟩ := @Render.fields_declares
    subject.style (bindings.filter fun binding =>
      !binding.promoted && (subject.outline.field? binding.field).isNone) hstyle
    (by intro binding hbinding; have := mem_filter.mp hbinding; exact hwritable _ this.1 (by simp_all))
    (by simpa using hne)
  have hblock : DeclaresOthers ls := ⟨added, hdeclares, hctor, hfactory⟩
  have hunlines := unlines_eq_joined hls
  rw [← htext] at hunlines
  have hbehind := hblock.append .blank
  cases h
  cases subject.outline.traitUses.getLast? with
  | some traitUse =>
    dsimp only [Option.getD_some]
    split
    · exact ⟨_, DeclaresOthers.blank.append hbehind, .lineEnd rfl (by simp [Edit.insert, hunlines]), by simp⟩
    · exact ⟨_, DeclaresOthers.blank.append hblock, .lineEnd rfl (by simp [Edit.insert, hunlines]), by simp⟩
  | none =>
    cases subject.outline.fields.find? (!·.promoted) with
    | some first => exact ⟨_, hbehind, .lineStart rfl (by simp [Edit.insert, hunlines]), by simp⟩
    | none =>
      dsimp only [Option.map_none, Option.getD_none]
      split
      · exact ⟨_, DeclaresOthers.blank.append hblock, .lineEnd rfl (by simp [Edit.insert, hunlines]),
          fun _ => rfl⟩
      · split
        · exact ⟨_, hbehind, .lineEnd rfl (by simp [Edit.insert, hunlines]), fun _ => rfl⟩
        · exact ⟨_, hblock, .lineEnd rfl (by simp [Edit.insert, hunlines]), fun _ => rfl⟩

/-! ### Imports -/

/-- The line in front of which imports go. -/
def Subject.importLine (subject : Subject) : Nat :=
  match subject.outline.lastImportLine with
  | some last => last + 1
  | none =>
    if subject.outline.decl.kind == .anonymousClass then subject.outline.namespaceLine.getD 0 + 1
    else subject.outline.decl.leadingLine

theorem isClosedLine_useStatement {name : String} (h : IsClassName name) :
    IsClosedLine (useStatement name) := by
  have hplain : ∀ c ∈ useStatement name, IsPlain c ∧ c ≠ '\n' := by
    refine forall_mem_append.mpr ⟨by decide, forall_mem_append.mpr ⟨fun c hc => ?_, by decide⟩⟩
    have hinline := (isFlat_of_isNameChar (h.qualified.2 c hc)).isInline
    exact ⟨hinline.1, hinline.2.2.2.1⟩
  exact .of_plain (fun hmem => (hplain _ hmem).2 rfl) fun c hc => (hplain c hc).1

/-- New imports are lines that are inserted above the class. -/
theorem importEdit_inserts {names : List String}
    (hnames : ∀ name ∈ names.filter (!subject.outline.hasImport ·), IsClassName name)
    (h : importEdit subject names = some edit) :
    ∃ new, (∀ line ∈ new, IsClosedLine line) ∧ subject.Inserts edit new subject.importLine := by
  obtain ⟨ordered, hperm, htext⟩ := Draft.exists_imports (names.filter (!subject.outline.hasImport ·))
  have hblank : IsClosedLine [] := ⟨nofun, rfl⟩
  have huses : ∀ line ∈ ordered.map useStatement, IsClosedLine line := by
    simpa using fun name hname => isClosedLine_useStatement (hnames name (hperm.subset hname))
  simp only [importEdit] at h
  split at h
  · cases h
  rename_i hne
  have hunlines := unlines_eq_joined (show ordered.map useStatement ≠ [] by
    intro hnil
    rw [map_eq_nil_iff.mp hnil] at hperm
    exact hne (by rw [hperm.symm.eq_nil]; rfl))
  rw [← htext] at hunlines
  cases h
  rw [Subject.importLine]
  cases subject.outline.lastImportLine with
  | some last => exact ⟨_, huses, .lineEnd rfl (by simp [Edit.insert, hunlines])⟩
  | none =>
    dsimp only
    split
    · exact ⟨[] :: ordered.map useStatement, forall_mem_cons.mpr ⟨hblank, huses⟩,
        .lineEnd rfl (by simp [Edit.insert, hunlines])⟩
    · exact ⟨_, forall_mem_append.mpr ⟨huses, forall_mem_singleton.mpr hblank⟩,
        .lineStart rfl (by simp [Edit.insert, hunlines])⟩

end ServiceInjection

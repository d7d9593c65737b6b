import ServiceInjection.Proofs.Outline.PlainHead
import ServiceInjection.Proofs.Refactor.Bindings
import ServiceInjection.Proofs.Text.Names
import ServiceInjection.Proofs.Wiring.Rendered

/-!
# Refactor.ImportsOnce

A refactoring adds imports above the class. It imports no class twice if it overlooks none
of the imports that the file has, and a plain head has none to overlook.
-/

namespace ServiceInjection

open Text List

variable {n : Nat} {outline : Outline} {text : String}

/-! ### Imports above a class -/

/-- The classes that are imported above a line. -/
def usedAbove (text : String) (line : Nat) : List String :=
  usedIn (textBefore text.toList ⟨line, 0⟩)

/-- Whether no class is imported twice above a line, up to the case of ASCII letters. -/
def ImportsOnce (text : String) (line : Nat) : Prop :=
  (usedAbove text line).Pairwise fun a b => sameName a b = false

instance (text : String) (line : Nat) : Decidable (ImportsOnce text line) :=
  inferInstanceAs (Decidable (List.Pairwise _ _))

/-- The names of classes that no import was found for. -/
def Outline.overlooked (outline : Outline) (names : List String) : List String :=
  names.filter fun name => !outline.imports.any (sameName ·.name name)

namespace Draft

variable {draft : Draft} {subject : Subject} {knownInterfaces : List String} {edits : List Edit}

/-- The edit that adds imports. -/
def importPart (draft : Draft) (subject : Subject) (knownInterfaces : List String) : Option Edit :=
  importEdit subject (draft.importNames subject knownInterfaces)

/-- The classes that the edit imports. -/
def newImports (draft : Draft) (subject : Subject) (knownInterfaces : List String) : List String :=
  (draft.importNames subject knownInterfaces).filter (!subject.outline.hasImport ·)

/-- The number of lines that the edit adds. -/
def importLines (draft : Draft) (subject : Subject) (knownInterfaces : List String) : Nat :=
  match draft.importPart subject knownInterfaces with
  | some edit => edit.text.toList.count '\n'
  | none => 0

/-- Whether imports can be added to a text: they name classes, they go between two statements
above the class, and all other edits are made from the line of the class on. -/
structure ImportsFit (draft : Draft) (subject : Subject) (knownInterfaces : List String)
    (text : String) (edits : List Edit) : Prop where
  names : ∀ name ∈ draft.newImports subject knownInterfaces, IsClassName name
  place : ∀ edit ∈ draft.importPart subject knownInterfaces,
    edit.range.start ≤ ⟨subject.outline.decl.line, 0⟩ ∧
      BetweenStatements (textBefore text.toList edit.range.start)
  others : ∀ edit ∈ edits, draft.importPart subject knownInterfaces = some edit ∨
    subject.outline.decl.line ≤ edit.range.start.line

/-- The imports come first. -/
theorem exists_edits (h : draft.edits subject knownInterfaces = .ok edits)
    (hfits : draft.Fits subject) :
    ∃ others, edits = (draft.importPart subject knownInterfaces).toList ++ others := by
  rw [edits_eq_ok_iff] at h
  split at h
  · rename_i hbindings
    have hkeep := hfits.keep (isEmpty_iff.mpr hbindings)
    have hnone : draft.importPart subject knownInterfaces = none := by
      simp [importPart, importEdit, importNames, containerType, marker, hkeep, hbindings]
    exact ⟨_, by rw [hnone]; exact h⟩
  · obtain ⟨factory, -, rfl⟩ := h
    simp only [wired, append_assoc]
    exact ⟨_, rfl⟩

/-- Where imports go, and what is inserted there. -/
inductive ImportsAt (subject : Subject) (names : List String) (edit : Edit) : Prop
  /-- Behind a line. -/
  | lineEnd (line : Nat) {gap : List Char} : Blank gap →
      edit.range = ⟨⟨line, subject.lineEnd line⟩, ⟨line, subject.lineEnd line⟩⟩ →
      edit.text.toList = '\n' :: gap ++ joined (names.map useStatement) → ImportsAt subject names edit
  /-- In front of the comments of the class. -/
  | lineStart (line : Nat) : line ≤ subject.outline.decl.line →
      edit.range = ⟨⟨line, 0⟩, ⟨line, 0⟩⟩ →
      edit.text.toList = joined (names.map useStatement) ++ ['\n', '\n'] →
      ImportsAt subject names edit

theorem exists_imports (names : List String) :
    ∃ ordered : List String, ordered.Perm names ∧
      (Render.imports names).toList = joined (ordered.map useStatement) := by
  refine ⟨_, mergeSort_perm names fun a b => decide (lowercase a ≤ lowercase b), ?_⟩
  rw [Render.imports, Render.toList_joinLines, map_map]
  congr 1
  refine map_congr_left fun name _ => ?_
  simp [useStatement]

theorem importPart_spec (hplaced : subject.outline.Placed subject.source) :
    (draft.importPart subject knownInterfaces = none ∧
        draft.newImports subject knownInterfaces = []) ∨
      ∃ edit names, draft.importPart subject knownInterfaces = some edit ∧
        names.Perm (draft.newImports subject knownInterfaces) ∧
        ImportsAt subject names edit := by
  simp only [importPart, importEdit]
  split
  · rename_i hempty
    exact .inl ⟨rfl, isEmpty_iff.mp hempty⟩
  · obtain ⟨names, hperm, htext⟩ := exists_imports (draft.newImports subject knownInterfaces)
    have htext' : (Render.imports ((draft.importNames subject knownInterfaces).filter
        (!subject.outline.hasImport ·))).toList = joined (names.map useStatement) := htext
    refine .inr ⟨_, names, rfl, hperm, ?_⟩
    cases subject.outline.lastImportLine with
    | some last =>
      refine .lineEnd last (forall_mem_nil _ : Blank []) rfl ?_
      dsimp only [Edit.insert]
      rw [String.toList_append, htext']
      rfl
    | none =>
      cases subject.outline.decl.kind == .anonymousClass with
      | true =>
        refine .lineEnd _ (by decide : Blank ['\n']) rfl ?_
        dsimp only [Edit.insert]
        rw [if_pos rfl, String.toList_append, htext']
        rfl
      | false =>
        refine .lineStart _ hplaced.leading_le rfl ?_
        dsimp only [Edit.insert]
        rw [if_neg Bool.false_ne_true, String.toList_append, htext']
        rfl

end Draft

/-- A class is declared on a line that holds text. -/
theorem Outline.raw_line_ne_nil {source : Source}
    (h : Outline.ofDeclaration source n = some outline) :
    outline.decl.line < source.size ∧ source.raw outline.decl.line ≠ [] := by
  simp only [Outline.ofDeclaration, guard, Option.bind_eq_bind, Option.bind_eq_some_iff] at h
  obtain ⟨head, hhead, opening, -, _, -, close, -, houtline⟩ := h
  cases houtline
  have hcode : source.line n ≠ [] := by
    intro hnil
    have hnone : Head.of? (Line.code []) = none := by cbv
    rw [Source.code, hnil, hnone] at hhead
    cases hhead
  refine ⟨?_, fun hnil => hcode (map_eq_nil_iff.mp hnil)⟩
  refine Nat.lt_of_not_le fun hle => hcode ?_
  rw [Source.line, getD_eq_getElem?_getD, getElem?_eq_none hle]
  rfl

theorem Outline.line_le_count (h : Outline.ofDeclaration (Source.ofText text) n = some outline) :
    outline.decl.line ≤ text.toList.count '\n' := by
  have hlt := (Outline.raw_line_ne_nil h).1
  have hlength := length_lines_le text.toList
  rw [Source.size, Source.ofText, Source.ofLines, length_maskLines] at hlt
  omega

theorem Outline.imports_ofDeclaration {source : Source}
    (h : Outline.ofDeclaration source n = some outline) :
    outline.imports = (ImportScan.run source).imports := by
  simp only [Outline.ofDeclaration, guard, Option.bind_eq_bind, Option.bind_eq_some_iff] at h
  obtain ⟨head, -, opening, -, _, -, close, -, houtline⟩ := h
  cases houtline
  rfl

/-- Text that is put in above a line. -/
theorem usedAbove_insert {out : String} {front ins back rest rest' : List Char} {new : List String}
    (htext : text.toList = front ++ back ++ rest)
    (hout : out.toList = front ++ (ins ++ back) ++ rest') (hlines : WholeLines (front ++ back))
    (hlines' : WholeLines (front ++ (ins ++ back)))
    (hnew : (usedIn (front ++ (ins ++ back))).Perm (usedIn (front ++ back) ++ new)) :
    (usedAbove out ((front ++ back).count '\n' + ins.count '\n')).Perm
      (usedAbove text ((front ++ back).count '\n') ++ new) := by
  have hcount : (front ++ back).count '\n' + ins.count '\n' =
      (front ++ (ins ++ back)).count '\n' := by
    simp only [count_append]
    omega
  rwa [usedAbove, usedAbove, htext, hout, Batch.textBefore_wholeLines hlines, hcount,
    Batch.textBefore_wholeLines hlines']

namespace Draft

variable {draft : Draft} {subject : Subject} {knownInterfaces : List String} {edits : List Edit}

/-- New imports add their classes to those above the class. -/
theorem ImportsAt.perm {whole rest : List Char} {names : List String} {edit : Edit}
    {others : List Edit} (hat : ImportsAt subject names edit)
    (hsource : subject.source = Source.ofText text) (htext : text.toList = whole ++ rest)
    (hwhole : WholeLines whole) (hcount : whole.count '\n' = subject.outline.decl.line)
    (hraw : subject.source.raw subject.outline.decl.line ≠ [])
    (hnames : ∀ name ∈ names, IsClassName name)
    (hle : edit.range.start ≤ ⟨subject.outline.decl.line, 0⟩)
    (hbetween : BetweenStatements (textBefore text.toList edit.range.start))
    (hothers : ∀ other ∈ others,
      other = edit ∨ subject.outline.decl.line ≤ other.range.start.line) :
    (usedAbove ((Batch.assemble (edit :: others)).apply text)
        (subject.outline.decl.line + edit.text.toList.count '\n')).Perm
      (usedAbove text subject.outline.decl.line ++ names.map unrooted) := by
  have hstring : text = String.ofList (whole ++ rest) := by
    rw [← htext, String.ofList_toList]
  rw [← hcount] at hle hothers ⊢
  cases hat with
  | @lineEnd line gap hgap hrange hins =>
    have hinsertion : edit.isInsertion = true := by simp [Edit.isInsertion, hrange]
    have hlt : line < whole.count '\n' := by
      rw [hrange, Position.le_def] at hle
      refine hle.resolve_right fun hstart => ?_
      obtain ⟨heq, hzero⟩ := hstart
      have hpos := subject.lineEnd_pos hraw
      rw [show subject.outline.decl.line = line from (heq.trans hcount).symm] at hpos
      exact Nat.not_le.mpr hpos hzero
    obtain ⟨front, returns, back, raw, rfl, hreturns, hline, hoffset⟩ :=
      Batch.exists_lineEnd hwhole hlt
    have hend : subject.lineEnd line = width16 raw := by
      have hget : (lines text.toList)[line]? = some raw := by
        have hlength := (lines_wholeLines_append hwhole rest).2
        rw [htext, (lines_wholeLines_append hwhole rest).1,
          getElem?_append_left (by omega), hline]
      rw [Subject.lineEnd, hsource]
      exact congrArg width16 (Source.raw_written hget)
    have hstart : textBefore text.toList edit.range.start = front := by
      rw [textBefore, hrange, htext]
      dsimp only
      rw [hend, hoffset rest, append_assoc, take_left]
    rw [hstart] at hbetween
    have hoffset' := hoffset rest
    rw [← hend, show line = edit.range.start.line by rw [hrange],
      show subject.lineEnd edit.range.start.line = edit.range.start.column by rw [hrange]]
      at hoffset'
    obtain ⟨rest', hout⟩ :=
      Batch.apply_assemble_above hwhole hinsertion hle hoffset' hothers
    refine usedAbove_insert htext (by rw [hstring]; exact hout) hwhole ?_ ?_
    · rw [← append_assoc]
      exact hwhole.of_append.append (by simp)
    · rw [hins]
      exact usedIn_insert_lineEnd hbetween hnames hgap hreturns back
  | lineStart line hline hrange hins =>
    have hinsertion : edit.isInsertion = true := by simp [Edit.isInsertion, hrange]
    obtain ⟨front, back, rfl, hfront, rfl⟩ := exists_wholeLines (hcount ▸ hline)
    have hoffset := Batch.offsetOf_wholeLines hfront (back ++ rest)
    rw [← append_assoc] at hoffset
    have hstart : textBefore text.toList edit.range.start = front := by
      rw [textBefore, hrange, htext]
      dsimp only
      rw [hoffset, append_assoc, take_left]
    rw [hstart] at hbetween
    obtain ⟨rest', hout⟩ := Batch.apply_assemble_above hwhole hinsertion hle
      (by rw [hrange]; exact hoffset) hothers
    refine usedAbove_insert htext (by rw [hstring]; exact hout) hwhole ?_ ?_
    · by_cases hnil : back = []
      · rw [hnil, hins]
        exact .inr ⟨front ++ (joined (names.map useStatement) ++ ['\n']), by simp⟩
      · rw [← append_assoc]
        exact hwhole.of_append.append hnil
    · rw [hins, append_assoc]
      exact usedIn_insert_lines hbetween hfront hnames back

/-- **What is imported.** Above the class, a refactoring adds the new classes to those that the
text imports. -/
theorem ImportsFit.perm (hsource : subject.source = Source.ofText text)
    (houtline : Outline.ofDeclaration subject.source n = some subject.outline)
    (hdraft : draft.Fits subject) (hedits : draft.edits subject knownInterfaces = .ok edits)
    (h : draft.ImportsFit subject knownInterfaces text edits) :
    (usedAbove ((Batch.assemble edits).apply text)
        (subject.outline.decl.line + draft.importLines subject knownInterfaces)).Perm
      (usedAbove text subject.outline.decl.line ++
        (draft.newImports subject knownInterfaces).map unrooted) := by
  have hraw := (Outline.raw_line_ne_nil houtline).2
  obtain ⟨others, rfl⟩ := exists_edits hedits hdraft
  obtain ⟨whole, rest, htext, hwhole, hcount⟩ :=
    exists_wholeLines (Outline.line_le_count (hsource ▸ houtline))
  rcases @importPart_spec draft subject knownInterfaces (Outline.placed_ofDeclaration houtline) with
    ⟨hnone, hnew⟩ | ⟨edit, names, hedit, hperm, hat⟩
  · have hothers : ∀ edit ∈ others, whole.count '\n' ≤ edit.range.start.line := by
      intro edit hmem
      rw [hcount]
      refine (h.others edit (mem_append_right _ hmem)).resolve_left ?_
      rw [hnone]
      nofun
    obtain ⟨rest', hout⟩ := @Batch.apply_assemble_below whole rest hwhole others hothers
    rw [← htext, String.ofList_toList] at hout
    rw [importLines, hnone, hnew, Option.toList_none, nil_append, map_nil,
      append_nil, Nat.add_zero, usedAbove, usedAbove, hout, htext, ← hcount,
      Batch.textBefore_wholeLines hwhole, Batch.textBefore_wholeLines hwhole]
  · obtain ⟨hle, hbetween⟩ := h.place edit hedit
    have hothers : ∀ other ∈ others,
        other = edit ∨ subject.outline.decl.line ≤ other.range.start.line := by
      intro other hmem
      refine (h.others other (mem_append_right _ hmem)).imp_left fun heq => ?_
      exact (Option.some.inj (hedit.symm.trans heq)).symm
    rw [importLines, hedit, Option.toList_some, singleton_append]
    refine (hat.perm hsource htext hwhole hcount hraw
      (fun name hname => h.names name (hperm.mem_iff.mp hname)) hle hbetween hothers).trans ?_
    exact (hperm.map unrooted).append_left _

end Draft

/-! ### No class twice -/

/-- A class that an import was found for is no new one. -/
theorem Outline.not_sameName {name new : String}
    (hname : outline.imports.any (sameName ·.name name) = true)
    (hnew : outline.hasImport new = false) : sameName name (unrooted new) = false := by
  obtain ⟨entry, hentry, hsame⟩ := any_eq_true.mp hname
  rw [Bool.eq_false_iff]
  intro hequal
  rw [Outline.hasImport, any_eq_false] at hnew
  exact hnew entry hentry (sameName_trans hsame hequal)

/-- **Imported once.** A refactoring finds all classes that a plain head imports. If its imports
fit, the new text imports no class twice above the class exactly if the old one does not, the
new imports name different classes, and no class among them is one whose import was
overlooked. -/
theorem refactor_importsOnce_iff {knowledge : Knowledge} {request : Request} {batch : Batch}
    (h : refactor knowledge request = .ok batch) :
    ∃ subject draft edits, request.subject knowledge.options = .ok subject ∧
      Draft.of knowledge request.services subject = .ok draft ∧
      draft.edits subject request.knownInterfaces = .ok edits ∧
      (PlainHead subject.source subject.outline.decl.line {} 0 →
        subject.outline.overlooked (usedAbove request.text subject.outline.decl.line) = []) ∧
      (draft.ImportsFit subject request.knownInterfaces request.text edits →
        (ImportsOnce (batch.apply request.text)
            (subject.outline.decl.line + draft.importLines subject request.knownInterfaces) ↔
          ImportsOnce request.text subject.outline.decl.line ∧
          (draft.newImports subject request.knownInterfaces).Pairwise
            (fun a b => sameName (unrooted a) (unrooted b) = false) ∧
          ∀ name ∈ subject.outline.overlooked (usedAbove request.text subject.outline.decl.line),
            ∀ new ∈ draft.newImports subject request.knownInterfaces,
              sameName name (unrooted new) = false)) := by
  obtain ⟨subject, draft, edits, hsubject, hdraft, hedits, -, rfl⟩ := refactor_eq_ok_iff.mp h
  obtain ⟨hsource, n, houtline⟩ := Request.subject_spec hsubject
  refine ⟨subject, draft, edits, hsubject, hdraft, hedits, fun hplain => ?_, fun hfit => ?_⟩
  · have hused : usedAbove request.text subject.outline.decl.line =
        (subject.source.usesAbove subject.outline.decl.line).classes := by
      rw [usedAbove, usedIn, hsource,
        UseScan.ofText_textBefore request.text (Outline.line_le_count (hsource ▸ houtline))]
    refine filter_eq_nil_iff.mpr fun name hname => ?_
    obtain ⟨entry, hentry, hsame⟩ := hplain.exists_import
      (Nat.le_of_lt (Outline.raw_line_ne_nil houtline).1) (hused ▸ hname)
    have hany : subject.outline.imports.any (sameName ·.name name) = true :=
      any_eq_true.mpr ⟨entry, Outline.imports_ofDeclaration houtline ▸ hentry, hsame⟩
    simp [hany]
  · have hperm := hfit.perm hsource houtline (Draft.fits_of hdraft) hedits
    have hsymm : ∀ {a b : String}, sameName a b = false → sameName b a = false :=
      fun hab => sameName_comm _ _ ▸ hab
    rw [ImportsOnce, hperm.pairwise_iff hsymm, pairwise_append, pairwise_map]
    refine and_congr_right fun _ => and_congr_right fun _ => ?_
    constructor
    · intro hcross name hname new hnew
      exact hcross name (mem_filter.mp hname).1 _ (mem_map_of_mem hnew)
    · intro hcross name hname other hother
      obtain ⟨new, hnew, rfl⟩ := mem_map.mp hother
      by_cases hfound : subject.outline.imports.any (sameName ·.name name) = true
      · exact Outline.not_sameName hfound (by simpa using (mem_filter.mp hnew).2)
      · exact hcross name (mem_filter.mpr ⟨hname, by simpa using hfound⟩) new hnew

/-- A class below a group of imports, whose constructor and factory can be extended. -/
def groupedImports : Request where
  text := "<?php
use A\\\x7b
 B,
 C as D,
\x7d; // two
class P \x7b
function __construct() \x7b
\x7d
static function create($c) \x7b
return new static();
\x7d
\x7d
"
  role := .baseClass
  services := ["renderer"]

/-- A service whose class has to be imported. -/
def rendererKnowledge : Knowledge where
  directory := { rows := [⟨"renderer", "R\\Renderer", "renderer", "renderer"⟩] }

theorem plainHead_groupedImports : PlainHead (Source.ofText groupedImports.text) 5 {} 0 := by
  have hlines : (Source.ofText groupedImports.text).code 0 = "<?php".toList ∧
      ImportScan.startsImport ((Source.ofText groupedImports.text).code 1) = true ∧
      (Source.ofText groupedImports.text).lineOfFirst 1 ';' = 4 ∧
      joinTrimmed ((Source.span 1 4).map (Source.ofText groupedImports.text).code) =
        "use A\\\x7b B, C as D, \x7d;".toList ∧
      joinTrimmed ((Source.span 1 4).map (Source.ofText groupedImports.text).raw) =
        "use A\\\x7b B, C as D, \x7d; // two".toList := by
    decide +kernel
  generalize Source.ofText groupedImports.text = source at hlines
  obtain ⟨htag, hstarts, hlast, hcode, hraw⟩ := hlines
  have hbody : PlainBody (trim "A\\\x7b B, C as D, \x7d".toList) :=
    @PlainBody.group "A\\".toList " B, C as D, ".toList (by decide) ⟨by decide, by decide⟩
  have huse : PlainUse source 1 :=
    ⟨hstarts, ' ', _, _, by decide, hbody, by rw [hlast]; exact hcode, by rw [hlast]; exact hraw⟩
  refine .line (by decide) ?_ (.use (by rw [hlast]; decide) ?_ huse ?_)
  · rw [htag]
    exact ⟨by decide, by decide +kernel, by decide, by decide, by decide⟩
  · rw [htag]
    decide
  · rw [hlast]
    exact .nil

theorem importsOnce_groupedImports :
    ∃ batch, refactor rendererKnowledge groupedImports = .ok batch ∧
      ImportsOnce (batch.apply groupedImports.text) 6 := by
  have hread : groupedImports.drafts rendererKnowledge (fun subject draft edits =>
      subject.outline.decl.line = 5 ∧
        draft.newImports subject [] = ["R\\Renderer"] ∧ draft.importLines subject [] = 1 ∧
        (∀ edit ∈ draft.importPart subject [], edit.range.start = ⟨4, 9⟩) ∧
        ∀ edit ∈ edits, draft.importPart subject [] = some edit ∨
          5 ≤ edit.range.start.line) = true := by
    decide +kernel
  have htext : BetweenStatements (textBefore groupedImports.text.toList ⟨4, 9⟩) ∧
      ImportsOnce groupedImports.text 5 := by
    decide +kernel
  obtain ⟨subject, draft, edits, hsubject, hdraft, hedits, hbatch, hread⟩ := Request.of_drafts hread
  obtain ⟨hline, hnew, hadded, hstart, hothers⟩ := decide_eq_true_eq.mp hread
  obtain ⟨subject', draft', edits', hsubject', hdraft', hedits', hplain, honce⟩ :=
    refactor_importsOnce_iff hbatch
  cases hsubject.symm.trans hsubject'
  cases hdraft.symm.trans hdraft'
  cases hedits.symm.trans hedits'
  have hfit : draft.ImportsFit subject [] groupedImports.text edits := by
    refine ⟨by rw [hnew]; decide, fun edit hedit => ?_, hline ▸ hothers⟩
    rw [hstart edit hedit, hline]
    exact ⟨by decide, htext.1⟩
  have hoverlooked := hplain (by
    rw [(Request.subject_spec hsubject).1, hline]
    exact plainHead_groupedImports)
  have hafter := (honce hfit).mpr
  rw [show groupedImports.knownInterfaces = [] from rfl, hoverlooked, hline, hadded, hnew] at hafter
  exact ⟨_, hbatch, hafter ⟨htext.2, by decide, nofun⟩⟩

/-- A class below an import with a comment inside. -/
def commentedImport : Request where
  text := "<?php
use R\\Renderer /* x */;
class P \x7b
function __construct() \x7b
\x7d
static function create($c) \x7b
return new static();
\x7d
\x7d
"
  role := .baseClass
  services := ["renderer"]

/-- The import is overlooked and made again. -/
theorem repeats_commentedImport :
    ImportsOnce commentedImport.text 2 ∧
      ∃ batch, refactor rendererKnowledge commentedImport = .ok batch ∧
        ¬ ImportsOnce (batch.apply commentedImport.text) 4 := by
  have hread : commentedImport.drafts rendererKnowledge (fun subject draft edits =>
      subject.outline.decl.line = 2 ∧
        draft.newImports subject [] = ["R\\Renderer"] ∧ draft.importLines subject [] = 2 ∧
        (∀ edit ∈ draft.importPart subject [], edit.range.start = ⟨2, 0⟩) ∧
        ∀ edit ∈ edits, draft.importPart subject [] = some edit ∨
          2 ≤ edit.range.start.line) = true := by
    decide +kernel
  have htext : BetweenStatements (textBefore commentedImport.text.toList ⟨2, 0⟩) ∧
      usedAbove commentedImport.text 2 = ["R\\Renderer"] := by
    decide +kernel
  obtain ⟨subject, draft, edits, hsubject, hdraft, hedits, hbatch, hread⟩ := Request.of_drafts hread
  obtain ⟨hline, hnew, hadded, hstart, hothers⟩ := decide_eq_true_eq.mp hread
  obtain ⟨hsource, n, houtline⟩ := Request.subject_spec hsubject
  have hfit : draft.ImportsFit subject [] commentedImport.text edits := by
    refine ⟨by rw [hnew]; decide, fun edit hedit => ?_, hline ▸ hothers⟩
    rw [hstart edit hedit, hline]
    exact ⟨by decide, htext.1⟩
  refine ⟨by rw [ImportsOnce, htext.2]; decide, _, hbatch, fun honce => ?_⟩
  have hperm := hfit.perm hsource houtline (Draft.fits_of hdraft) hedits
  rw [show commentedImport.knownInterfaces = [] from rfl, hline, hadded, hnew, htext.2] at hperm
  rw [ImportsOnce, hperm.pairwise_iff (fun hab => sameName_comm _ _ ▸ hab)] at honce
  exact absurd honce (by decide)

end ServiceInjection

import ServiceInjection.Proofs.Outline.Clauses
import ServiceInjection.Proofs.Outline.FoundMembers
import ServiceInjection.Proofs.Refactor.ImportsOnce
import ServiceInjection.Proofs.Wiring.TypeRefs

/-!
# Refactor.Marker

Where the marker interface goes: behind the last code in front of the first brace on the line of
the class body. The column is counted in the masked line, where a hidden character is as wide as
its bytes, so it is the right one exactly if the characters hidden in front of it are one byte each
(`Line.width16_masked`); and the code is that of the header exactly if that brace opens the body
(`Source.LastSolid.iff_eq`). There the header gets the marker as the last of its interfaces and
keeps its parent (`markerEdit_inHeader_iff`).
-/

namespace ServiceInjection

open Text List

/-! ### Masked text -/

namespace Line

variable {cells front rest : Line}

theorem blank_masked_iff : Blank cells.masked ↔ Blank cells.code := by
  have hcell : ∀ cell : Cell, Blank cell.masked ↔ isBlank cell.code = true := by
    intro cell
    rw [Cell.masked, Cell.code]
    split
    · simp [Blank]
    · exact iff_of_true (fun c hc => (mem_replicate.mp hc).2 ▸ by decide) (by decide)
  simp only [Blank, masked, code, forall_mem_flatMap, forall_mem_map]
  exact forall₂_congr fun cell _ => hcell cell

/-- The last code of a line that is not blank. -/
theorem exists_last (h : ¬ Blank cells.code) : ∃ front c rest, cells = front ++ .show c :: rest ∧
    isBlank c = false ∧ Blank (Line.code rest) := by
  induction cells using reverseRecOn with
  | nil => exact absurd (forall_mem_nil _) h
  | append_singleton cells cell ih =>
    by_cases hblank : isBlank cell.code = true
    · rw [code_append] at h
      obtain ⟨front, c, rest, rfl, hc, hrest⟩ := ih fun hcells =>
        h (hcells.append (forall_mem_singleton.mpr hblank))
      exact ⟨front, c, rest ++ [cell], by simp, hc,
        code_append rest _ ▸ hrest.append (forall_mem_singleton.mpr hblank)⟩
    · refine ⟨cells, cell.code, [], ?_, by simpa using hblank, forall_mem_nil _⟩
      rw [← Cell.eq_show_of_code rfl fun hspace => hblank (by rw [hspace]; decide)]

theorem trimEnd_masked {c : Char} (hc : isBlank c = false) (hrest : Blank (Line.code rest)) :
    trimEnd (Line.masked (front ++ .show c :: rest)) = Line.masked (front ++ [.show c]) := by
  have hmasked : Line.masked (.show c :: rest) = c :: rest.masked := rfl
  rw [masked_append, masked_append, hmasked, trimEnd_append_cons _ hc,
    ← nil_append rest.masked, trimEnd_append_right [] (blank_masked_iff.mpr hrest)]
  rfl

/-- Whether each hidden character is one byte. -/
def Narrow (cells : Line) : Prop := ∀ cell ∈ cells, cell.shown = false → cell.char.utf8Size = 1

instance (cells : Line) : Decidable cells.Narrow := inferInstanceAs (Decidable (∀ cell ∈ cells, _))

theorem width16_replicate (n : Nat) : width16 (replicate n ' ') = n := by
  induction n with
  | zero => rfl
  | succ n ih => rw [replicate_succ, width16, ih, show units16 ' ' = 1 from rfl, Nat.add_comm]

/-- Masked text is as wide as the text only where what is hidden is one byte each. -/
theorem width16_masked (cells : Line) : width16 cells.raw ≤ width16 cells.masked ∧
    (width16 cells.masked = width16 cells.raw ↔ cells.Narrow) := by
  have hcell : ∀ cell : Cell, units16 cell.char ≤ width16 cell.masked ∧
      (width16 cell.masked = units16 cell.char ↔ (cell.shown = false → cell.char.utf8Size = 1)) := by
    rintro ⟨c, _ | _⟩
    · rw [Cell.masked, if_neg (by simp), width16_replicate]
      unfold units16 Char.utf8Size Char.toNat
      have hc := c.val.toNat_lt
      simp only [UInt32.le_iff_toNat_le]
      repeat' split
      all_goals simp_all
      all_goals omega
    · simp [Cell.masked, width16]
  induction cells with
  | nil => simp [raw, masked, Narrow]
  | cons cell cells ih =>
    obtain ⟨hle, hiff⟩ := hcell cell
    have hmasked : Line.masked (cell :: cells) = cell.masked ++ Line.masked cells := rfl
    have hraw : Line.raw (cell :: cells) = cell.char :: Line.raw cells := rfl
    rw [Narrow] at ih ⊢
    rw [hmasked, hraw, width16_append, width16, forall_mem_cons, ← hiff, ← ih.2]
    omega

end Line

/-! ### The end of a header -/

namespace Source

variable {source : Source} {spot : Spot}

/-- The cells of line `n` in front of a place on it or further down. -/
def upTo (source : Source) (spot : Spot) (n : Nat) : Line :=
  if n = spot.line then (source.line n).take spot.col else source.line n

/-- The last character of code in front of a place that is not blank. -/
structure LastSolid (source : Source) (spot : Spot) (last : Glyph) : Prop where
  holds : source.Holds last.spot last.char
  solid : isBlank last.char = false
  before : last.spot.before spot = true
  blank : ∀ other c, source.Holds other c → last.spot.before other = true →
    other.before spot = true → isBlank c = true

theorem exists_upTo (source : Source) (spot : Spot) (n : Nat) :
    ∃ more, source.line n = source.upTo spot n ++ more := by
  rw [upTo]
  split
  · exact ⟨_, (take_append_drop _ _).symm⟩
  · exact ⟨[], (append_nil _).symm⟩

theorem Holds.upTo {other : Spot} {c : Char} (h : source.Holds other c)
    (hbefore : other.before spot = true) :
    (source.upTo spot other.line).code[other.col]? = some c := by
  rw [Spot.before_def] at hbefore
  rw [Source.upTo]
  split
  · rw [Line.code, map_take, getElem?_take_of_lt (by omega)]
    exact h
  · exact h

theorem LastSolid.of_line {n : Nat} {front rest : Line} {c : Char} (hline : n ≤ spot.line)
    (hcells : source.upTo spot n = front ++ .show c :: rest) (hc : isBlank c = false)
    (hrest : Blank (Line.code rest))
    (hlater : ∀ k, n < k → k ≤ spot.line → Blank (source.upTo spot k).code) :
    source.LastSolid spot ⟨⟨n, front.length⟩, c⟩ where
  holds := by
    obtain ⟨more, hmore⟩ := source.exists_upTo spot n
    simp [Holds, code, hmore, hcells, Line.code, Cell.code, Cell.show]
  solid := hc
  before := by
    rw [Spot.before_def]
    have hlength := congrArg List.length hcells
    rw [upTo] at hlength
    split at hlength
    · rw [length_take] at hlength
      simp only [length_append, length_cons] at hlength
      dsimp only
      omega
    · dsimp only
      omega
  blank other d hholds hbehind hbefore := by
    have hget := hholds.upTo hbefore
    rw [Spot.before_def] at hbehind hbefore
    dsimp only at hbehind
    by_cases hsame : other.line = n
    · rw [hsame, hcells, Line.code, map_append, getElem?_append_right (by simp; omega)] at hget
      obtain ⟨k, hk⟩ : ∃ k, other.col - (front.map Cell.code).length = k + 1 :=
        Nat.exists_eq_add_one.mpr (by simp; omega)
      rw [hk, map_cons, getElem?_cons_succ] at hget
      exact hrest d (mem_of_getElem? hget)
    · exact hlater other.line (by omega) (by omega) d (mem_of_getElem? hget)

/-- The first brace on a line. -/
def firstBrace (source : Source) (n : Nat) : Spot := ⟨n, (source.code n).idxOf '{'⟩

theorem Holds.firstBrace (h : source.Holds spot '{') :
    source.Holds (source.firstBrace spot.line) '{' ∧
      (source.firstBrace spot.line = spot ∨ (source.firstBrace spot.line).before spot = true) := by
  have hle : (source.code spot.line).idxOf '{' ≤ spot.col := by
    refine Nat.le_of_not_lt fun hlt => ?_
    obtain ⟨hcol, hget⟩ := List.getElem?_eq_some_iff.mp h
    simpa [hget] using not_of_lt_findIdx hlt
  refine ⟨getElem?_idxOf (mem_of_getElem? h), ?_⟩
  rcases Nat.eq_or_lt_of_le hle with heq | hlt
  · exact .inl (congrArg (Spot.mk spot.line) heq)
  · exact .inr (Spot.before_def.mpr (.inr ⟨rfl, hlt⟩))

/-- The code in front of a brace is the last one in front of a place only if that is the brace. -/
theorem LastSolid.iff_eq {first : Spot} {last : Glyph} (h : source.LastSolid first last)
    (hfirst : source.Holds first '{') (hbefore : first = spot ∨ first.before spot = true) :
    source.LastSolid spot last ↔ first = spot := by
  refine ⟨fun hlast => hbefore.resolve_right fun hbefore => ?_, fun heq => heq ▸ h⟩
  exact absurd (hlast.blank first '{' hfirst h.before hbefore) (by decide)

end Source

section

variable {subject : Subject} {n : Nat}

/-- The line that a marker interface goes to: the last line of the header with code. -/
theorem headerEnd?_spec (h : headerEnd? subject = some n) :
    n ≤ subject.outline.decl.openBraceLine ∧ ¬ Blank (headerPart subject n) ∧
      ∀ k, n < k → k ≤ subject.outline.decl.openBraceLine → Blank (headerPart subject k) := by
  obtain ⟨hsolid, above, below, hsplit, habove⟩ := find?_eq_some_iff_append.mp h
  have hsorted : (above ++ n :: below).Pairwise (· > ·) := by
    rw [← hsplit, pairwise_reverse]
    exact pairwise_lt_range'
  have hmem : ∀ k, k ∈ above ++ n :: below ↔ subject.outline.decl.line ≤ k ∧
      k ≤ subject.outline.decl.openBraceLine := fun k => by
    rw [← hsplit, mem_reverse, Source.mem_span]
  have hn := (hmem n).mp (by simp)
  refine ⟨hn.2, by simpa [isBlankLine, Blank] using hsolid, fun k hlt hle => ?_⟩
  rcases mem_append.mp ((hmem k).mpr ⟨by omega, hle⟩) with hk | hk
  · simpa [isBlankLine, Blank] using habove k hk
  · rcases mem_cons.mp hk with rfl | hk
    · exact absurd hlt (Nat.lt_irrefl k)
    · have := (pairwise_cons.mp (pairwise_append.mp hsorted).2.1).1 k hk
      omega

/-- The header goes up to the first brace on the line of the body. -/
theorem headerPart_eq (subject : Subject) (n : Nat) : headerPart subject n = (subject.source.upTo
    (subject.source.firstBrace subject.outline.decl.openBraceLine) n).masked := by
  rw [headerPart, Source.upTo, Source.firstBrace]
  dsimp only
  by_cases hn : n = subject.outline.decl.openBraceLine
  · rw [if_pos (beq_iff_eq.mpr hn), if_pos hn, takeWhile_eq_take_findIdx_not, ← hn, idxOf,
      Source.code, Line.code, findIdx_map]
    simp [bne, Function.comp_def]
  · rw [if_neg (by simpa using hn), if_neg hn]

/-- **The end of a header.** Some code stands last in front of the first brace on the line of the
body, and the marker interface goes directly behind it if and only if everything hidden on its line
is one byte each. -/
theorem exists_lastSolid (h : headerEnd? subject = some n) : ∃ last, subject.source.LastSolid
      (subject.source.firstBrace subject.outline.decl.openBraceLine) last ∧ n = last.spot.line ∧
    let front : Line := (subject.source.line last.spot.line).take (last.spot.col + 1)
    (width16 (trimEnd (headerPart subject n)) = width16 front.raw ↔ front.Narrow) := by
  obtain ⟨hle, hsolid, hlater⟩ := headerEnd?_spec h
  simp only [headerPart_eq, Line.blank_masked_iff] at hsolid hlater ⊢
  obtain ⟨front, c, rest, hcells, hc, hrest⟩ := Line.exists_last hsolid
  refine ⟨_, .of_line hle hcells hc hrest hlater, rfl, ?_⟩
  obtain ⟨more, hmore⟩ := subject.source.exists_upTo _ n
  have hfront : (subject.source.line n).take (front.length + 1) = front ++ [.show c] := by
    rw [hmore, hcells]
    simp [take_append, take_succ_cons, take_of_length_le]
  rw [hcells, Line.trimEnd_masked hc hrest, hfront]
  exact (Line.width16_masked _).2

end

/-- The header of a class: its code behind the name, up to the body. -/
def Outline.header? (source : Source) (outline : Outline) : Option (List Char) := do
  let head ← Head.of? (source.code outline.decl.line)
  let brace ← outline.brace? source
  some (source.slice ⟨outline.decl.line, head.stop⟩ brace).masked

theorem Outline.exists_header {source : Source} {n : Nat} {outline : Outline}
    (h : Outline.ofDeclaration source n = some outline) :
    ∃ brace header, outline.brace? source = some brace ∧ outline.header? source = some header ∧
      outline.decl.parent = parentOf header ∧ outline.decl.interfaces = interfacesOf header := by
  simp only [Outline.ofDeclaration, bind, Option.bind_eq_some_iff] at h
  obtain ⟨head, hhead, opening, hopening, _, -, close, -, hsome⟩ := h
  cases hsome
  refine ⟨opening.spot, _, ?_, ?_, rfl, rfl⟩
  · simp [brace?, hhead, hopening]
  · simp [header?, brace?, hhead, hopening]

theorem Role.isQualified_markerInterface {role : Role} {conventions : Conventions}
    (h : role.conventions? = some conventions) :
    IsQualified conventions.markerInterface.toList ∧
      IsQualified (shortName conventions.markerInterface).toList := by
  cases role with
  | baseClass =>
    cases h
    decide +kernel
  | pluginFactory =>
    cases h
    decide +kernel
  | other tag => cases h

/-- **Marker interfaces.** The marker interface goes directly behind the last code in front of the
first brace on the line of a class body if and only if what is hidden in front of it on its line is
one byte each, and that code is the last one of the header if and only if the brace opens the body.
Behind the code of a header whose clauses are complete, the marker leaves the parent as it is and
becomes the last of the interfaces. -/
theorem markerEdit_inHeader_iff {request : Request} {options : Options} {subject : Subject}
    {knownInterfaces : List String} {reserved : Reservations} {edit : Edit}
    {importName : Option String} (h : request.subject options = .ok subject)
    (hedit : markerEdit subject knownInterfaces reserved = some (edit, importName)) :
    ∃ brace header last gap, subject.outline.brace? subject.source = some brace ∧
      subject.outline.header? subject.source = some header ∧
      header = trimEnd header ++ gap ∧ Blank gap ∧
      (let first := subject.source.firstBrace brace.line
      let front : Line := (subject.source.line last.spot.line).take (last.spot.col + 1)
      let place : Position := ⟨last.spot.line, width16 front.raw⟩
      subject.source.LastSolid first last ∧ (edit.range = ⟨place, place⟩ ↔ front.Narrow) ∧
        (subject.source.LastSolid brace last ↔ first = brace)) ∧
      (CompleteClauses header →
        let header' := trimEnd header ++ (edit.text.toList ++ gap)
        parentOf header' = subject.outline.decl.parent ∧
          interfacesOf header' = subject.outline.decl.interfaces ++
            [(typeRef subject.outline reserved subject.conventions.markerInterface).1.text]) := by
  obtain ⟨-, n, houtline⟩ := Request.subject_spec h
  obtain ⟨brace, header, hbrace, hheader, hparent, hinterfaces⟩ := Outline.exists_header houtline
  obtain ⟨hholds, hline, -⟩ := Outline.of_brace houtline hbrace
  obtain ⟨hname, hshort⟩ := Role.isQualified_markerInterface (Request.conventions_of_subject h)
  have hplain : ∀ entry ∈ subject.outline.imports, entry.Plain := by
    rw [Outline.imports_ofDeclaration houtline]
    exact ImportScan.plain_run subject.source
  have hqualified := typeRef_isQualified hplain hname hshort reserved
  simp only [markerEdit, Option.bind_eq_bind, Option.bind_eq_some_iff] at hedit
  obtain ⟨_, -, line, hend, hsome⟩ := hedit
  cases hsome
  obtain ⟨last, hlast, rfl, hplace⟩ := exists_lastSolid hend
  rw [hline] at hlast
  obtain ⟨hfirst, hbefore⟩ := hholds.firstBrace
  obtain ⟨gap, hgap, htrim⟩ := exists_trimEnd header
  refine ⟨brace, header, last, gap, hbrace, hheader, htrim, hgap,
    ⟨hlast, ?_, hlast.iff_eq hfirst hbefore⟩, fun hcomplete => ?_⟩
  · refine Iff.trans ?_ hplace
    simp [Edit.insert]
  · have happend := And.intro (parentOf_append hcomplete hgap htrim hqualified rfl)
      (interfacesOf_append hcomplete hgap htrim hqualified rfl)
    rw [← hparent, ← hinterfaces, String.ofList_toList] at happend
    simp only [Edit.insert, String.toList_append, apply_ite String.toList, append_assoc]
    exact happend

/-- A class with interfaces, behind other braces and in front of a comment. -/
def groupedHeader : Request where
  text := "<?php\nuse Drupal\\Core\\DependencyInjection\\ContainerInjectionInterface as Marker;\n" ++
    "class Page extends Base /* \x7bA\x7d */\n  implements A, B // C\n\x7b\n\x7d\n"
  role := .baseClass

theorem inHeader_groupedHeader : ∃ subject edit importName,
    groupedHeader.subject {} = .ok subject ∧
      markerEdit subject [] [] = some (edit, importName) ∧
      edit.range = ⟨⟨3, 17⟩, ⟨3, 17⟩⟩ ∧
      (∃ brace last, subject.outline.brace? subject.source = some brace ∧
        subject.source.LastSolid brace last ∧ edit.range.start = ⟨last.spot.line,
          width16 (Line.raw ((subject.source.line last.spot.line).take (last.spot.col + 1)))⟩) ∧
      ∃ header, subject.outline.decl.parent = parentOf header ∧
        interfacesOf header = ["A", "B", "Marker"] := by
  have hread : (groupedHeader.subject {}).toOption.any (fun subject =>
      (markerEdit subject [] []).any fun marked => marked.1.range = ⟨⟨3, 17⟩, ⟨3, 17⟩⟩ ∧
        subject.outline.decl.interfaces = ["A", "B"] ∧
        (typeRef subject.outline [] subject.conventions.markerInterface).1.text = "Marker" ∧
        (∀ n < subject.source.lines.length, (subject.source.line n).Narrow) ∧
        (∀ brace ∈ subject.outline.brace? subject.source,
          subject.source.firstBrace brace.line = brace) ∧
        ∀ header ∈ subject.outline.header? subject.source,
          ¬ "extends".toList <:+ trimEnd header ∧ ¬ "implements".toList <:+ trimEnd header ∧
            ∀ m ∈ firstWordMatch implementsClause header,
              m.stop = header.length ∧ interfacesOf header ≠ []) = true := by
    decide +kernel
  rw [any_toOption_iff] at hread
  simp only [Option.any_eq_true, decide_eq_true_eq] at hread
  obtain ⟨subject, hsubject, ⟨edit, importName⟩, hedit, hrange, hnames, hmarker, hnarrow, hleads,
    hcomplete⟩ := hread
  obtain ⟨brace, header, last, gap, hbrace, hheader, -, -, ⟨-, hplace, hiff⟩, hclauses⟩ :=
    markerEdit_inHeader_iff hsubject hedit
  obtain ⟨hextends, himplements, hlist⟩ := hcomplete header hheader
  have hlast := hiff.mpr (hleads brace hbrace)
  have hfront : Line.Narrow ((subject.source.line last.spot.line).take (last.spot.col + 1)) :=
    fun cell hcell => hnarrow _ hlast.holds.line_lt cell (mem_of_mem_take hcell)
  obtain ⟨hparent, hinterfaces⟩ := hclauses ⟨hextends, himplements, hlist⟩
  rw [hnames, hmarker] at hinterfaces
  exact ⟨subject, edit, importName, hsubject, hedit, hrange,
    ⟨brace, last, hbrace, hlast, hplace.mpr hfront ▸ rfl⟩, _, hparent.symm, hinterfaces⟩

/-- A class with a comment in front of its parent that is not in ASCII. -/
def accentedHeader : Request where
  text := "<?php\nclass Page /* éé */ extends Base \x7b\n\x7d\n"
  role := .baseClass

/-- The marker interface goes behind the brace. -/
theorem misplaced_accentedHeader : (accentedHeader.subject {}).toOption.any (fun subject =>
    (subject.outline.brace? subject.source).any fun brace =>
      (markerEdit subject [] []).any fun marked => marked.1.range.start = ⟨brace.line,
        width16 (Line.raw ((subject.source.line brace.line).take (brace.col + 1)))⟩) = true := by
  decide +kernel

end ServiceInjection

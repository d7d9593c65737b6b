import ServiceInjection.Proofs.Outline.FoundImports

/-!
# Outline.ImportText

Import statements as they are written. A clause names a class by its segments, with or without a
backslash in front, and may give it a new name; a statement lists clauses, or the members of a
group behind a common start. Reading a written statement gives back exactly the classes of its
clauses with their new names, in order (`importsOf_written`).
-/

namespace ServiceInjection

open Text List

/-! ### What is written -/

/-- The path of a class: words with backslashes between them, and perhaps one in front. -/
structure ClassPath where
  rooted : Bool
  segments : List (List Char)
  ne_nil : segments ≠ []
  isName : ∀ segment ∈ segments, IsName segment

/-- A new name, with the blanks around the keyword in front of it. -/
structure Renaming where
  before : List Char
  behind : List Char
  name : List Char
  gap_before : before ≠ [] ∧ Blank before
  gap_behind : behind ≠ [] ∧ Blank behind
  isName : IsName name

/-- A clause of a statement. -/
structure WrittenClause extends ClassPath where
  renamed : Option Renaming

/-- A member of a group, with the blanks around it. -/
structure GroupMember extends WrittenClause where
  lead : List Char
  tail : List Char
  blank_lead : Blank lead
  blank_tail : Blank tail

namespace ClassPath

variable (path : ClassPath)

/-- The path without a backslash in front. -/
def name : List Char := ['\\'].intercalate path.segments

def text : List Char := if path.rooted then '\\' :: path.name else path.name

/-- A path starts and ends with a word. -/
theorem name_eq : ∃ c cs, path.name = c :: cs ∧ isWord c = true ∧
    ∀ d ∈ path.name.getLast?, isWord d = true := by
  obtain ⟨segment, segments, hcons⟩ := exists_cons_of_ne_nil path.ne_nil
  have hwords := path.isName
  rw [name]
  rw [hcons] at hwords ⊢
  clear hcons
  induction segments generalizing segment with
  | nil =>
    obtain ⟨c, cs, rfl⟩ := exists_cons_of_ne_nil (hwords segment mem_cons_self).1
    have hword := (hwords _ mem_cons_self).2
    rw [intercalate_singleton]
    exact ⟨c, cs, rfl, hword c mem_cons_self, fun d hd => hword d (mem_of_mem_getLast? hd)⟩
  | cons next segments ih =>
    obtain ⟨hsegment, hrest⟩ := forall_mem_cons.mp hwords
    obtain ⟨c, cs, rfl⟩ := exists_cons_of_ne_nil hsegment.1
    obtain ⟨d, ds, hname, -, hlast⟩ := ih next hrest
    rw [intercalate_cons_cons]
    refine ⟨c, _, rfl, hsegment.2 c mem_cons_self, fun e he => hlast e ?_⟩
    rwa [getLast?_append, hname, getLast?_cons, Option.some_or, ← getLast?_cons,
      ← hname] at he

theorem isQualified_name : IsQualified path.name := by
  obtain ⟨c, cs, hname, -⟩ := path.name_eq
  refine ⟨by simp [hname], fun d hd => ?_⟩
  rcases mem_intercalate hd with rfl | ⟨segment, hsegment, hd⟩
  · decide
  · exact isNameChar_of_isWord ((path.isName segment hsegment).2 d hd)

theorem isQualified_text : IsQualified path.text := by
  obtain ⟨hne, hchars⟩ := path.isQualified_name
  rw [text]
  split
  · exact ⟨cons_ne_nil _ _, forall_mem_cons.mpr ⟨by decide, hchars⟩⟩
  · exact ⟨hne, hchars⟩

theorem dropLeadingBackslash_append (rest : List Char) :
    dropLeadingBackslash (path.text ++ rest) = path.name ++ rest := by
  obtain ⟨c, cs, hname, hc, -⟩ := path.name_eq
  rw [text, hname]
  split
  · rfl
  · refine dropLeadingBackslash.eq_2 _ fun d ds heq => ?_
    rw [(cons.inj heq).1] at hc
    exact absurd hc (by decide)

end ClassPath

namespace WrittenClause

variable (clause : WrittenClause)

def text : List Char := clause.toClassPath.text ++
  match clause.renamed with
  | some new => new.before ++ ("as".toList ++ (new.behind ++ new.name))
  | none => []

/-- The import of a clause on a line, behind the start of a group. -/
def imported (start : List Char) (line : Nat) : Import :=
  ⟨String.ofList (start ++ clause.name), clause.renamed.map (String.ofList ·.name), line⟩

theorem text_ne_nil : clause.text ≠ [] :=
  append_ne_nil_of_left_ne_nil clause.isQualified_text.1 _

theorem trim_text : trim clause.text = clause.text := by
  have hpath := clause.isQualified_text
  rw [text]
  cases clause.renamed with
  | none => rw [append_nil, hpath.trim_eq]
  | some new =>
    have hnew : IsQualified new.name :=
      ⟨new.isName.1, fun c hc => isNameChar_of_isWord (new.isName.2 c hc)⟩
    have htrim := trim_between (new.before ++ ("as".toList ++ new.behind)) hpath.trim_eq hpath.1
      hnew.trim_eq hnew.1
    simpa using htrim

theorem of?_text : ImportClause.of? clause.text =
    some ⟨clause.name, clause.renamed.map (·.name)⟩ := by
  have hpath := clause.isQualified_text
  have hdrop := clause.dropLeadingBackslash_append []
  rw [append_nil, append_nil] at hdrop
  rw [text]
  cases clause.renamed with
  | none => rw [append_nil, ImportClause.of?_name hpath, hdrop, Option.map_none]
  | some new =>
    rw [ImportClause.of?_renamed hpath new.gap_before.2 new.gap_before.1 new.gap_behind.2
      new.gap_behind.1 new.isName, hdrop, Option.map_some]

/-- A clause holds names and blanks only. -/
theorem of_mem_text {c : Char} (h : c ∈ clause.text) : isNameChar c = true ∨ isBlank c = true := by
  rw [text, mem_append] at h
  rcases h with h | h
  · exact .inl (clause.isQualified_text.2 c h)
  · cases hnew : clause.renamed with
    | none => simp [hnew] at h
    | some new =>
      simp only [hnew, mem_append] at h
      have has : ∀ c ∈ "as".toList, isNameChar c = true := by decide
      rcases h with h | h | h | h
      · exact .inr (new.gap_before.2 c h)
      · exact .inl (has c h)
      · exact .inr (new.gap_behind.2 c h)
      · exact .inl (isNameChar_of_isWord (new.isName.2 c h))

end WrittenClause

/-! ### Reading it -/

/-- A list of pieces is cut at the commas between them. -/
theorem clauses_intercalate {pieces : List (List Char)} (hne : pieces ≠ [])
    (h : ∀ piece ∈ pieces, ∀ c ∈ piece, isNameChar c = true ∨ isBlank c = true) :
    clauses ([','].intercalate pieces) = pieces.filterMap (ImportClause.of? <| trim ·) := by
  have hsplit : splitBy (· == ',') ([','].intercalate pieces) = pieces := by
    induction pieces with
    | nil => exact absurd rfl hne
    | cons piece pieces ih =>
      obtain ⟨hpiece, hpieces⟩ := forall_mem_cons.mp h
      have hcut : ∀ c ∈ piece, (c == ',') = false := by
        intro c hc
        refine beq_eq_false_iff_ne.mpr ?_
        rintro rfl
        rcases hpiece _ hc with hc | hc <;> exact absurd hc (by decide)
      cases pieces with
      | nil => rw [intercalate_singleton, splitBy_of_forall hcut]
      | cons next pieces =>
        rw [intercalate_cons_cons, append_assoc, singleton_append,
          splitBy_append hcut rfl, ih (cons_ne_nil _ _) hpieces]
  rw [clauses, hsplit, filterMap_map]
  rfl

namespace GroupMember

def text (member : GroupMember) : List Char :=
  member.lead ++ (member.toWrittenClause.text ++ member.tail)

/-- A member is read as it is written, whatever blanks stand around it. -/
theorem of?_trim (member : GroupMember) : ImportClause.of? (trim member.text) =
    some ⟨member.name, member.renamed.map (·.name)⟩ := by
  rw [text, trim_append_left _ member.blank_lead, trim_append_right _ member.blank_tail,
    member.trim_text, member.of?_text]

/-- Members with commas between them, and perhaps one behind the last. -/
theorem clauses_eq {members : List GroupMember} (hne : members ≠ [])
    {trailing : Option (List Char)} (htrailing : ∀ gap ∈ trailing, Blank gap) :
    ClauseChars ([','].intercalate (members.map text ++ trailing.toList)) ∧
      clauses ([','].intercalate (members.map text ++ trailing.toList)) =
        members.map fun member => ⟨member.name, member.renamed.map (·.name)⟩ := by
  have hchars : ∀ piece ∈ members.map text ++ trailing.toList, ∀ c ∈ piece,
      isNameChar c = true ∨ isBlank c = true := by
    intro piece hpiece c hc
    rcases mem_append.mp hpiece with hpiece | hpiece
    · obtain ⟨member, -, rfl⟩ := mem_map.mp hpiece
      rw [text, mem_append, mem_append] at hc
      rcases hc with hc | hc | hc
      · exact .inr (member.blank_lead c hc)
      · exact member.of_mem_text hc
      · exact .inr (member.blank_tail c hc)
    · exact .inr (htrailing piece (Option.mem_toList.mp hpiece) c hc)
  constructor
  · intro c hc
    rcases mem_intercalate hc with rfl | ⟨piece, hpiece, hc⟩
    · exact .inr rfl
    · exact .inl (hchars piece hpiece c hc)
  · have hlast : trailing.toList.filterMap (ImportClause.of? <| trim ·) = [] := by
      cases trailing with
      | none => rfl
      | some gap =>
        have hnil : trim gap = [] := trim_append_right [] (htrailing gap rfl)
        simp [hnil, ImportClause.of?, run]
    have hread : (ImportClause.of? <| trim ·) ∘ text = some ∘ fun member : GroupMember =>
        ⟨member.name, member.renamed.map (·.name)⟩ := funext of?_trim
    rw [clauses_intercalate (by simp [hne]) hchars, filterMap_append, hlast, append_nil,
      filterMap_map, hread, filterMap_eq_map]

end GroupMember

namespace WrittenClause

/-- The texts of clauses, cut at the commas only. -/
theorem intercalate_text (first : WrittenClause) (more : List WrittenClause) :
    ", ".toList.intercalate ((first :: more).map text) =
      [','].intercalate (first.text :: more.map (' ' :: ·.text)) := by
  induction more generalizing first with
  | nil => rfl
  | cons next more ih =>
    have hnext := ih next
    rw [map_cons] at hnext
    rw [map_cons, map_cons, intercalate_cons_cons, hnext, map_cons,
      intercalate_cons_cons]
    cases more with
    | nil => simp
    | cons last more => simp [intercalate_cons_cons]

theorem trim_intercalate (first : WrittenClause) (more : List WrittenClause) :
    trim (", ".toList.intercalate ((first :: more).map text)) =
      ", ".toList.intercalate ((first :: more).map text) := by
  induction more generalizing first with
  | nil =>
    rw [map_cons, map_nil, intercalate_singleton]
    exact first.trim_text
  | cons next more ih =>
    have hne : ", ".toList.intercalate ((next :: more).map text) ≠ [] := by
      obtain ⟨c, cs, htext⟩ := exists_cons_of_ne_nil next.text_ne_nil
      exact ne_nil_of_mem (mem_intercalate_of_mem mem_cons_self (htext ▸ mem_cons_self))
    rw [map_cons, map_cons, intercalate_cons_cons]
    exact trim_between _ first.trim_text first.text_ne_nil (ih next) hne

/-- The first word of a clause is its path. -/
theorem run_text (clause : WrittenClause) {rest : List Char}
    (hrest : ∀ c ∈ rest.head?, isNameChar c = false) :
    ∃ rest', run isNameChar (clause.text ++ rest) = some (clause.toClassPath.text, rest') := by
  obtain ⟨hne, hchars⟩ := clause.isQualified_text
  rw [text, append_assoc]
  refine ⟨_, run_append hne hchars ?_⟩
  cases clause.renamed with
  | none => exact hrest
  | some new =>
    obtain ⟨hgap, hblank⟩ := new.gap_before
    obtain ⟨d, gap, hcons⟩ := exists_cons_of_ne_nil hgap
    intro c hc
    dsimp only at hc
    rw [hcons] at hc hblank
    cases hc
    exact not_isNameChar_of_isBlank (hblank _ mem_cons_self)

/-- A list of clauses is read as it is written. -/
theorem importsOf_list (first : WrittenClause) (more : List WrittenClause)
    (hother : first.name ∉ ["function".toList, "const".toList]) (line : Nat) :
    importsOf ("use ".toList ++
        (", ".toList.intercalate ((first :: more).map text) ++ [';'])) line =
      (first :: more).map (·.imported [] line) := by
  have htrim := trim_intercalate first more
  obtain ⟨hchars, hclauses⟩ := @GroupMember.clauses_eq (⟨first, [], [], nofun, nofun⟩ ::
    more.map (⟨·, [' '], [], by decide, nofun⟩)) (cons_ne_nil _ _) none nofun
  have hpieces : (⟨first, [], [], nofun, nofun⟩ :: more.map
      (⟨·, [' '], [], by decide, nofun⟩)).map GroupMember.text ++ Option.toList none =
        first.text :: more.map (' ' :: ·.text) := by
    simp [GroupMember.text, Function.comp_def]
  rw [hpieces] at hchars hclauses
  rw [intercalate_text] at htrim ⊢
  have hbody := @useBody_eq ' ' _ (by decide) (hchars.not_mem (by decide)) []
  rw [htrim] at hbody
  obtain ⟨rest, hrun⟩ : ∃ rest, run isNameChar ([','].intercalate
      (first.text :: more.map (' ' :: ·.text))) = some (first.toClassPath.text, rest) := by
    cases more with
    | nil =>
      rw [map_nil, intercalate_singleton, ← append_nil first.text]
      exact first.run_text nofun
    | cons next more =>
      rw [map_cons, intercalate_cons_cons, append_assoc]
      exact first.run_text (by rintro c ⟨⟩; decide)
  have hword : first.toClassPath.text ∉ ["function".toList, "const".toList] := by
    rw [ClassPath.text]
    split
    · simp
    · exact hother
  refine (importsOf_eq hbody hrun (fun hmem => absurd hmem hword) line).trans ?_
  rw [groupImport_eq_none (hchars.not_mem (by decide)), hclauses]
  simp [imported, Function.comp_def]

end WrittenClause

namespace ClassPath

/-- The start of a group, without the backslashes around it. -/
theorem reverse_dropWhile_text (path : ClassPath) :
    ((dropLeadingBackslash (path.text ++ ['\\'])).reverse.dropWhile (· == '\\')).reverse =
      path.name := by
  obtain ⟨c, cs, hcons, -, hlast⟩ := path.name_eq
  obtain ⟨init, last, hconcat⟩ := (eq_nil_or_concat path.name).resolve_left (by simp [hcons])
  have hword : (last == '\\') = false := by
    rw [beq_eq_false_iff_ne]
    rintro rfl
    exact absurd (hlast '\\' (by simp [hconcat])) (by decide)
  rw [path.dropLeadingBackslash_append, hconcat]
  simp [hword]

/-- A group is read as it is written. -/
theorem importsOf_group (start : ClassPath) {members : List GroupMember} (hne : members ≠ [])
    {trailing : Option (List Char)} (htrailing : ∀ gap ∈ trailing, Blank gap) (line : Nat) :
    importsOf ("use ".toList ++ (start.text ++ ("\\\x7b".toList ++
        ([','].intercalate (members.map GroupMember.text ++ trailing.toList) ++ "\x7d;".toList))))
        line =
      members.map (·.imported (start.name ++ ['\\']) line) := by
  obtain ⟨hchars, hclauses⟩ := GroupMember.clauses_eq hne htrailing
  generalize [','].intercalate (members.map GroupMember.text ++ trailing.toList) = list at *
  have hstart := start.isQualified_text
  have hw : IsQualified (start.text ++ ['\\']) :=
    ⟨by simp, forall_mem_append.mpr ⟨hstart.2, by decide⟩⟩
  have hbody : useBody ("use".toList ++ ' ' ::
      (start.text ++ ['\\'] ++ '\x7b' :: (list ++ ['\x7d']) ++ [';'])) =
        some (start.text ++ ['\\'] ++ '\x7b' :: (list ++ ['\x7d'])) := by
    rw [useBody_eq (by decide)]
    · have htrim := trim_between ('\\' :: '\x7b' :: list) hstart.trim_eq hstart.1
        (f := ['\x7d']) (by decide) (by decide)
      simpa using htrim
    · have hstop : ';' ∉ start.text := fun hmem => absurd (hstart.2 _ hmem) (by decide)
      have hlist : ';' ∉ list := hchars.not_mem (by decide)
      simpa using ⟨hstop, hlist⟩
  have hread := importsOf_eq hbody (run_brace hw _) (fun _ => by simp) line
  rw [groupImport_eq hw (hchars.not_mem (by decide)), start.reverse_dropWhile_text] at hread
  dsimp only at hread
  rw [hclauses] at hread
  have htext : "use ".toList ++ (start.text ++ ("\\\x7b".toList ++ (list ++ "\x7d;".toList))) =
      "use".toList ++ ' ' :: (start.text ++ ['\\'] ++ '\x7b' :: (list ++ ['\x7d']) ++ [';']) := by
    simp
  rw [htext, hread]
  simp [WrittenClause.imported, Function.comp_def]

end ClassPath

/-- **Written imports.** A statement with clauses imports exactly their classes under their new
names, in order, unless its first word is a keyword of other imports. A group imports the classes
of its members below the common start, whatever blanks and whatever last comma it holds. -/
theorem importsOf_written (line : Nat) :
    (∀ (first : WrittenClause) (more : List WrittenClause),
      first.name ∉ ["function".toList, "const".toList] →
      importsOf ("use ".toList ++
          (", ".toList.intercalate ((first :: more).map WrittenClause.text) ++ [';'])) line =
        (first :: more).map (·.imported [] line)) ∧
    ∀ (start : ClassPath) (members : List GroupMember) (trailing : Option (List Char)),
      members ≠ [] → (∀ gap ∈ trailing, Blank gap) →
      importsOf ("use ".toList ++ (start.text ++ ("\\\x7b".toList ++
          ([','].intercalate (members.map GroupMember.text ++ trailing.toList) ++ "\x7d;".toList))))
          line =
        members.map (·.imported (start.name ++ ['\\']) line) :=
  ⟨fun first more hother => WrittenClause.importsOf_list first more hother line,
    fun start _ _ hne htrailing => start.importsOf_group hne htrailing line⟩

/-- A class in a namespace, named from the root and under a new name. -/
def rootedClause : WrittenClause :=
  ⟨⟨true, ["Core".toList, "Mail".toList], by decide, by decide⟩,
    some ⟨[' '], [' '], "Post".toList, by decide, by decide, by decide⟩⟩

def plainClause : WrittenClause := ⟨⟨false, ["Clock".toList], by decide, by decide⟩, none⟩

theorem written_renamedAndGrouped :
    importsOf "use \\Core\\Mail as Post, Clock;".toList 3 =
      [⟨"Core\\Mail", some "Post", 3⟩, ⟨"Clock", none, 3⟩] ∧
    importsOf "use Clock\\\x7b Clock,\\Core\\Mail as Post , \x7d;".toList 5 =
      [⟨"Clock\\Clock", none, 5⟩, ⟨"Clock\\Core\\Mail", some "Post", 5⟩] := by
  have hlist := (importsOf_written 3).1 rootedClause [plainClause] (by decide)
  have hgroup := (importsOf_written 5).2 plainClause.toClassPath
    [⟨plainClause, [' '], [], by decide, nofun⟩, ⟨rootedClause, [], [' '], nofun, by decide⟩]
    (some [' ']) (by decide) (by decide)
  exact ⟨hlist, hgroup⟩

end ServiceInjection

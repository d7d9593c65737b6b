import ServiceInjection.Proofs.Outline.WrittenHeads
import ServiceInjection.Proofs.Wiring.Lockstep

/-!
# Wiring.Rendered

What rendered text declares. `DeclaresText text added` says that a text stands for lines that
add members to a class; such texts compose with line feeds in between. Rendered properties
declare what their bindings say (`fields_declares`), and a rendered signature with lines of
code behind it makes up a method (`WrittenMethod.Lists`). The predicates `Writable` say what a
layout, a binding and the conventions of a role must be like for that: indentation is blank,
names are names, and no text breaks out of its comment or literal.
-/

namespace ServiceInjection

open Text List

/-! ### Text -/

namespace Render

theorem toList_joinLines (ls : List String) :
    (joinLines ls).toList = joined (ls.map String.toList) := by
  rw [joinLines, String.toList_intercalate]
  simp [joined]

theorem toList_commas (entries : List String) :
    (", ".intercalate entries).toList = listText [' '] (entries.map String.toList) := by
  rw [String.toList_intercalate]
  simp [listText]

/-- A list with one entry a line, as text. -/
theorem joined_listLines {entries : List String} (h : entries ≠ []) (indent : String)
    (trailing : Bool) :
    joined ((listLines indent trailing entries).map String.toList) =
      indent.toList ++ (listText ('\n' :: indent.toList) (entries.map String.toList) ++
        if trailing then [','] else []) := by
  induction entries with
  | nil => exact absurd rfl h
  | cons entry entries ih =>
    cases entries with
    | nil => cases trailing <;> simp [listLines, withCommas, listText_singleton]
    | cons second entries =>
      have hrest := ih (cons_ne_nil _ _)
      have hlines : listLines indent trailing (entry :: second :: entries) =
          (indent ++ (entry ++ ",")) :: listLines indent trailing (second :: entries) := rfl
      have hne := listLines_ne_nil (cons_ne_nil second entries) indent trailing
      rw [hlines, map_cons, joined_cons _ (by simpa using hne), hrest,
        map_cons (a := entry),
        listText_cons (by simp : (second :: entries).map String.toList ≠ [])]
      simp

end Render

/-! ### Text of comments -/

/-- Whether a text can stand within a comment on one line. -/
def IsDoc (text : String) : Prop := IsLine text.toList ∧ containsText "*/" text.toList = false

instance (text : String) : Decidable (IsDoc text) := inferInstanceAs (Decidable (_ ∧ _))

theorem containsText_close_iff {cs : List Char} :
    containsText "*/" cs = false ↔ cs.IsChain fun a b => ¬ (a = '*' ∧ b = '/') := by
  induction cs with
  | nil => exact ⟨fun _ => .nil, fun _ => by decide⟩
  | cons c cs ih =>
    have hstep : containsText "*/" (c :: cs) = false ↔
        ¬ (c = '*' ∧ cs.head? = some '/') ∧ containsText "*/" cs = false := by
      rw [containsText, containsChars, Bool.or_eq_false_iff]
      refine and_congr ?_ Iff.rfl
      cases cs with
      | nil => simp [isPrefixOf]
      | cons d cs =>
        rw [show ("*/".toList.isPrefixOf (c :: d :: cs)) = ('*' == c && ('/' == d && true)) by
          simp [isPrefixOf]]
        simp [@eq_comm _ '*', @eq_comm _ '/']
    rw [hstep, ih, isChain_cons]
    refine and_congr ?_ Iff.rfl
    cases cs with
    | nil => simp
    | cons d cs => simp

namespace IsDoc

variable {a b : String}

theorem of_not_mem (hline : IsLine a.toList) (h : '*' ∉ a.toList) : IsDoc a :=
  ⟨hline, containsText_close_iff.mpr (List.Pairwise.isChain
    (pairwise_of_forall_mem_list fun _ hmem _ _ hclose => h (hclose.1 ▸ hmem)))⟩

/-- A name fits in a comment. -/
theorem of_isName (h : IsName a.toList) : IsDoc a := by
  have hflat := isFlat_of_isName h
  refine .of_not_mem ⟨fun hmem => (hflat _ hmem).line.1 rfl, fun hmem => (hflat _ hmem).line.2 rfl⟩ ?_
  exact fun hmem => absurd (h.2 _ hmem) (by decide)

theorem append (ha : IsDoc a) (hb : IsDoc b)
    (h : a.toList.getLast? ≠ some '*' ∨ b.toList.head? ≠ some '/') : IsDoc (a ++ b) := by
  obtain ⟨⟨hfeed, hreturn⟩, hopen⟩ := ha
  obtain ⟨⟨hfeed', hreturn'⟩, hopen'⟩ := hb
  refine ⟨⟨by simp [hfeed, hfeed'], by simp [hreturn, hreturn']⟩, ?_⟩
  rw [containsText_close_iff] at hopen hopen' ⊢
  rw [String.toList_append]
  refine hopen.append hopen' fun x hx y hy => ?_
  rintro ⟨rfl, rfl⟩
  rcases h with h | h
  · exact h hx
  · exact h hy

/-- A label in front of a text. -/
theorem label {start text : String} (ha : IsDoc a) (hstart : IsDoc start) (htext : IsDoc text)
    (hfirst : start.toList.head? ≠ some '/') (hlast : start.toList.getLast? = some ' ') :
    IsDoc (a ++ start ++ text) := by
  refine (ha.append hstart (.inr hfirst)).append htext (.inl ?_)
  rw [String.toList_append, getLast?_append, hlast, Option.some_or]
  decide

end IsDoc

/-- A doc comment: its lines are in front of the closing sign, and none of them closes it. -/
theorem isComment_doc {indent : String} (hblank : Blank indent.toList) (hindent : IsDoc indent)
    {middle : List String} (hmiddle : ∀ line ∈ middle, IsDoc line) :
    IsComment (((indent ++ "/**") :: (middle ++ [indent ++ " */"])).map String.toList) := by
  refine ⟨⟨indent.toList, ['*'], middle.map String.toList, indent.toList ++ [' '], [], ?_, hblank,
    by decide, ?_, ?_, nofun⟩, ?_⟩
  · simp
  · intro line hline
    obtain ⟨text, htext, rfl⟩ := mem_map.mp hline
    exact (hmiddle text htext).2
  · have := (hindent.append (show IsDoc " " by decide) (.inr (by decide))).2
    simpa using this
  · intro line hline
    obtain ⟨text, htext, rfl⟩ := mem_map.mp hline
    rcases mem_cons.mp htext with rfl | htext
    · simp [hindent.1.1]
    · rcases mem_append.mp htext with htext | htext
      · exact (hmiddle text htext).1.1
      · rw [mem_singleton.mp htext]
        simp [hindent.1.1]

/-! ### Layout -/

/-- Whether a text consists of blanks on one line. -/
def Text.IsIndent (cs : List Char) : Prop := Blank cs ∧ IsLine cs

instance (cs : List Char) : Decidable (IsIndent cs) := inferInstanceAs (Decidable (_ ∧ _))

theorem Text.IsIndent.append {a b : List Char} (ha : IsIndent a) (hb : IsIndent b) :
    IsIndent (a ++ b) := by
  obtain ⟨hblank, hfeed, hreturn⟩ := ha
  obtain ⟨hblank', hfeed', hreturn'⟩ := hb
  exact ⟨hblank.append hblank', by simp [hfeed, hfeed'], by simp [hreturn, hreturn']⟩

/-- A layout whose indentation consists of blanks on one line. -/
structure CodeStyle.Writable (style : CodeStyle) : Prop where
  memberIndent : IsIndent style.memberIndent.toList
  unit : IsIndent style.unit.toList

namespace CodeStyle.Writable

variable {style : CodeStyle}

theorem isGap_memberIndent (h : style.Writable) : IsGap style.memberIndent.toList :=
  ⟨h.memberIndent.1, h.memberIndent.2.2⟩

theorem bodyIndent (h : style.Writable) : IsIndent style.bodyIndent.toList := by
  rw [CodeStyle.bodyIndent, String.toList_append]
  exact h.memberIndent.append h.unit

theorem argumentIndent (h : style.Writable) : IsIndent (style.bodyIndent ++ style.unit).toList := by
  rw [String.toList_append]
  exact h.bodyIndent.append h.unit

theorem isDoc (h : style.Writable) : IsDoc style.memberIndent :=
  .of_not_mem h.memberIndent.2 (h.memberIndent.1.not_mem (by decide))

end CodeStyle.Writable

theorem blank_leadingBlanks (cs : List Char) : Blank (leadingBlanks cs) :=
  all_eq_true.mp all_takeWhile

/-- The indentation of a class consists of the blanks in front of its lines and the default. -/
theorem CodeStyle.mem_detect {outline : Outline} {source : Source} {unit : String} {c : Char}
    (h : c ∈ (detect outline source unit).memberIndent.toList ∨
      c ∈ (detect outline source unit).unit.toList) :
    (∃ n, c ∈ leadingBlanks (source.raw n)) ∨ c ∈ unit.toList := by
  have hfallback : c ∈ (String.ofList (leadingBlanks (source.raw outline.decl.line)) ++ unit).toList ∨
      c ∈ unit.toList → (∃ n, c ∈ leadingBlanks (source.raw n)) ∨ c ∈ unit.toList := by
    rw [String.toList_append, String.toList_ofList, mem_append]
    rintro ((houter | hunit) | hunit)
    · exact .inl ⟨_, houter⟩
    · exact .inr hunit
    · exact .inr hunit
  unfold detect at h
  dsimp only at h
  split at h
  · exact hfallback h
  · rename_i n _
    split at h
    · simp only [String.toList_ofList] at h
      exact .inl ⟨n, h.elim id mem_of_mem_drop⟩
    · exact hfallback h

/-- With a default that is an indentation, so is what a class is laid out with. -/
theorem CodeStyle.writable_detect (outline : Outline) {source : Source} {unit : String}
    (hlines : ∀ n, IsLine (source.raw n)) (hunit : IsIndent unit.toList) :
    (detect outline source unit).Writable := by
  have hmem : ∀ c, c ∈ (detect outline source unit).memberIndent.toList ∨
      c ∈ (detect outline source unit).unit.toList → isBlank c = true ∧ c ≠ '\n' ∧ c ≠ '\r' := by
    intro c hc
    rcases mem_detect hc with ⟨n, hn⟩ | hc
    · have hraw := (List.takeWhile_prefix _).subset hn
      exact ⟨blank_leadingBlanks _ c hn, fun heq => (hlines n).1 (heq ▸ hraw),
        fun heq => (hlines n).2 (heq ▸ hraw)⟩
    · exact ⟨hunit.1 c hc, fun heq => hunit.2.1 (heq ▸ hc), fun heq => hunit.2.2 (heq ▸ hc)⟩
  exact ⟨⟨fun c hc => (hmem c (.inl hc)).1, fun hc => (hmem _ (.inl hc)).2.1 rfl,
      fun hc => (hmem _ (.inl hc)).2.2 rfl⟩,
    ⟨fun c hc => (hmem c (.inr hc)).1, fun hc => (hmem _ (.inr hc)).2.1 rfl,
      fun hc => (hmem _ (.inr hc)).2.2 rfl⟩⟩

namespace Render

variable {style : CodeStyle}

/-- The brace behind a signature follows it or stands on a line of its own. -/
theorem joined_openBrace (hstyle : style.Writable) {ls : List String} (hls : ls ≠ [])
    {start : List Char} (h : joined (ls.map String.toList) = start ++ style.openBrace.toList) :
    ∃ after, IsGap after ∧ joined ((if style.braceOnOwnLine then
        ls ++ [style.memberIndent ++ "\x7b"] else ls).map String.toList) = start ++ (after ++ ['{']) := by
  cases hown : style.braceOnOwnLine with
  | true =>
    refine ⟨'\n' :: style.memberIndent.toList, hstyle.isGap_memberIndent.feed, ?_⟩
    rw [if_pos rfl, map_append, joined_append (by simp), unlines_eq_joined (by simpa using hls), h]
    simp [CodeStyle.openBrace, hown]
  | false =>
    refine ⟨[' '], by decide, ?_⟩
    rw [if_neg (by simp), h]
    simp [CodeStyle.openBrace, hown]

/-- A written signature: what stands around its parameters, and between them, is blank. -/
theorem joined_signature (hstyle : style.Writable) (head : String) {params : List String}
    (h : params ≠ []) :
    ∃ lead gap tail after, IsGap lead ∧ IsGap gap ∧ IsGap tail ∧ IsGap after ∧
      joined ((signature style head params).map String.toList) =
        (style.memberIndent.toList ++ head.toList) ++ '(' ::
          ((lead ++ (listText gap (params.map String.toList) ++ tail)) ++ ')' :: (after ++ ['{'])) := by
  have hdeeper : IsGap ('\n' :: (style.memberIndent ++ style.unit).toList) :=
    .feed ⟨hstyle.bodyIndent.1, hstyle.bodyIndent.2.2⟩
  unfold signature
  dsimp only
  by_cases hfits : (fits (style.memberIndent ++ head ++ "(" ++ ", ".intercalate params ++ ")" ++
    style.openBrace) || params.isEmpty) = true
  · rw [if_pos hfits]
    have hsingle : joined ([style.memberIndent ++ head ++ "(" ++ ", ".intercalate params ++ ")" ++
        style.openBrace].map String.toList) = style.memberIndent.toList ++ head.toList ++ '(' ::
          (listText [' '] (params.map String.toList) ++ [')']) ++ style.openBrace.toList := by
      rw [map_singleton, joined_singleton, String.toList_append, String.toList_append,
        String.toList_append, toList_commas]
      simp
    obtain ⟨after, hafter, heq⟩ := joined_openBrace hstyle (cons_ne_nil _ _) hsingle
    exact ⟨[], [' '], [], after, by decide, by decide, by decide, hafter, by rw [heq]; simp⟩
  · rw [if_neg hfits]
    have hspread : joined (((style.memberIndent ++ head ++ "(") ::
        listLines (style.memberIndent ++ style.unit) false params ++
          [style.memberIndent ++ ")" ++ style.openBrace]).map String.toList) =
        style.memberIndent.toList ++ head.toList ++ '(' ::
          ('\n' :: (style.memberIndent ++ style.unit).toList ++
            (listText ('\n' :: (style.memberIndent ++ style.unit).toList) (params.map String.toList) ++
              '\n' :: style.memberIndent.toList) ++ [')']) ++ style.openBrace.toList := by
      have hne := listLines_ne_nil h (style.memberIndent ++ style.unit) false
      rw [map_append, joined_append (by simp), unlines_eq_joined (by simp), map_cons,
        joined_cons _ (by simpa using hne), joined_listLines h]
      simp
    obtain ⟨after, hafter, heq⟩ := joined_openBrace hstyle (by simp) hspread
    exact ⟨_, _, _, after, hdeeper, hdeeper, hstyle.isGap_memberIndent.feed, hafter, by rw [heq]; simp⟩

end Render

/-! ### Members as text -/

/-- Whether a text without carriage returns declares members. -/
structure Render.DeclaresText (text : String) (added : Members) : Prop where
  lines : ∃ ls, ls ≠ [] ∧ text.toList = joined ls ∧ Declares ls added
  no_return : '\r' ∉ text.toList

namespace Render

theorem not_mem_joinLines {c : Char} (hc : c ≠ '\n') {ls : List String}
    (h : ∀ line ∈ ls, c ∉ line.toList) : c ∉ (joinLines ls).toList := by
  rw [toList_joinLines]
  intro hmem
  rcases mem_joined hmem with rfl | ⟨line, hline, hmem⟩
  · exact hc rfl
  · obtain ⟨text, htext, rfl⟩ := mem_map.mp hline
    exact h text htext hmem

namespace DeclaresText

variable {a b : String} {added added' : Members}

theorem of_lines {ls : List String} (hne : ls ≠ []) (hreturn : ∀ line ∈ ls, '\r' ∉ line.toList)
    (h : Declares (ls.map String.toList) added) : DeclaresText (joinLines ls) added :=
  ⟨⟨_, by simpa using hne, toList_joinLines ls, h⟩, not_mem_joinLines (by decide) hreturn⟩

/-- Members behind others. -/
theorem append (ha : DeclaresText a added) (hb : DeclaresText b added') :
    ∃ k, DeclaresText (a ++ "\n" ++ b) (added ++ added'.moved k) := by
  obtain ⟨⟨ls, hne, hls, hdeclares⟩, hreturn⟩ := ha
  obtain ⟨⟨ls', hne', hls', hdeclares'⟩, hreturn'⟩ := hb
  refine ⟨ls.length, ⟨ls ++ ls', by simp [hne], ?_, hdeclares.append hdeclares'⟩, ?_⟩
  · rw [joined_append hne', unlines_eq_joined hne, String.toList_append, String.toList_append, hls, hls']
    simp
  · simp [hreturn, hreturn']

/-- Members behind others and a blank line. -/
theorem append_blank (ha : DeclaresText a added) (hb : DeclaresText b added') :
    ∃ k, DeclaresText (a ++ "\n\n" ++ b) (added ++ added'.moved k) := by
  have hblank : DeclaresText "" {} :=
    ⟨⟨[[]], by simp, by simp, .blank nofun nofun⟩, by simp⟩
  obtain ⟨k, hk⟩ := hblank.append hb
  obtain ⟨j, hj⟩ := ha.append hk
  rw [Members.empty_append, Members.moved_moved] at hj
  refine ⟨j + k, ?_⟩
  have htext : a ++ "\n" ++ ("" ++ "\n" ++ b) = a ++ "\n\n" ++ b := by
    simp [← String.toList_inj]
  rwa [htext] at hj

end DeclaresText

end Render

/-! ### Properties -/

/-- A binding that can be written: its names are names, and its texts fit in a comment or
a literal. -/
structure Binding.Writable (binding : Binding) : Prop where
  serviceId : IsServiceId binding.serviceId.toList
  field : IsName binding.field.toList
  param : IsName binding.param.toList
  typeHint : IsTypeOf ("const" :: propertyModifiers) (binding.typeHint.map String.toList)
  docType : IsDoc binding.docType
  description : IsDoc binding.description
  promoted : binding.promoted = false

namespace Render

variable {style : CodeStyle} {bindings : List Binding}

theorem no_return_doc (hstyle : style.Writable) {middle : List String}
    (hmiddle : ∀ line ∈ middle, IsDoc line) :
    ∀ line ∈ (style.memberIndent ++ "/**") :: (middle ++ [style.memberIndent ++ " */"]),
      '\r' ∉ line.toList := by
  have hindent := hstyle.memberIndent.2.2
  refine forall_mem_cons.mpr ⟨by simp [hindent], forall_mem_append.mpr ⟨?_, ?_⟩⟩
  · exact fun line hline => (hmiddle line hline).1.2
  · simp [hindent]

/-- The comment in front of a property. -/
def fieldDoc (style : CodeStyle) (binding : Binding) : List String :=
  [ style.memberIndent ++ " * The " ++ binding.description ++ ".",
    style.memberIndent ++ " *",
    style.memberIndent ++ " * @var " ++ binding.docType ]

theorem field_eq (style : CodeStyle) (binding : Binding) :
    field style binding = joinLines (
      (style.memberIndent ++ "/**") :: (fieldDoc style binding ++ [style.memberIndent ++ " */"]) ++
      [style.memberIndent ++ "protected " ++ (match binding.typeHint with
        | some hint => hint ++ " "
        | none => "") ++ "$" ++ binding.field ++ ";"]) := rfl

theorem isDoc_fieldDoc (hstyle : style.Writable) {binding : Binding} (h : binding.Writable) :
    ∀ line ∈ fieldDoc style binding, IsDoc line := by
  have hindent := hstyle.isDoc
  simp only [fieldDoc, forall_mem_cons, not_mem_nil, false_implies, implies_true, and_true]
  refine ⟨?_, ?_, ?_⟩
  · refine (hindent.label (by decide) h.description (by decide) (by decide)).append (by decide) ?_
    exact .inr (by decide)
  · exact hindent.append (by decide) (.inr (by decide))
  · exact hindent.label (by decide) h.docType (by decide) (by decide)

theorem field_declares (hstyle : style.Writable) {binding : Binding} (h : binding.Writable) :
    DeclaresText (field style binding)
      { fields := [⟨binding.field, 5, binding.typeHint, none, false⟩] } := by
  obtain ⟨hblank, hline⟩ := hstyle.memberIndent
  have hproperty := Declares.property hblank hline.1 h.typeHint h.field
  have hcomment := Declares.comment (isComment_doc hblank hstyle.isDoc (isDoc_fieldDoc hstyle h))
  have hdeclaration : (style.memberIndent ++ "protected " ++ (match binding.typeHint with
        | some hint => hint ++ " "
        | none => "") ++ "$" ++ binding.field ++ ";").toList =
      style.memberIndent.toList ++ propertyText (binding.typeHint.map String.toList)
        binding.field.toList := by
    cases binding.typeHint <;> simp [propertyText, visibilityWord, declText]
  have hqualified : ∀ cs ∈ binding.typeHint.map String.toList, IsQualified cs := fun cs hcs =>
    (h.typeHint cs hcs).1
  rw [field_eq]
  refine .of_lines (by simp) ?_ ?_
  · refine forall_mem_append.mpr ⟨no_return_doc hstyle (isDoc_fieldDoc hstyle h), ?_⟩
    intro line hmem
    rw [mem_singleton.mp hmem, hdeclaration, mem_append]
    exact fun hreturn => hreturn.elim hline.2 (isLine_propertyText hqualified h.field).2
  · have hboth := hcomment.append hproperty
    rw [← hdeclaration] at hboth
    simpa [Members.append_def, Members.moved, Field.moved, fieldDoc, Function.comp_def] using hboth

/-- Written properties are read with their names and types. -/
theorem fields_declares (hstyle : style.Writable) (h : ∀ binding ∈ bindings, binding.Writable)
    (hne : bindings ≠ []) :
    ∃ added, DeclaresText (fields style bindings) added ∧ added.constructor = none ∧
      added.factory = none ∧ added.fields.map (fun field => (field.name, field.typeHint, field.promoted)) =
        bindings.map fun binding => (binding.field, binding.typeHint, false) := by
  induction bindings with
  | nil => exact absurd rfl hne
  | cons binding rest ih =>
    obtain ⟨hbinding, hrest⟩ := forall_mem_cons.mp h
    have hfield := field_declares hstyle hbinding
    by_cases hnil : rest = []
    · subst hnil
      exact ⟨_, by simpa [fields] using hfield, rfl, rfl, rfl⟩
    · obtain ⟨added, hadded, hctor, hfactory, hfields⟩ := ih hrest hnil
      obtain ⟨k, hk⟩ := hfield.append_blank hadded
      have htext : fields style (binding :: rest) =
          field style binding ++ "\n\n" ++ fields style rest :=
        String.intercalate_append_of_ne_nil (l := [field style binding]) (cons_ne_nil _ _)
          (by simpa using hnil)
      refine ⟨_, htext ▸ hk, ?_, ?_, ?_⟩
      · simp [Members.append_def, Members.moved, hctor]
      · simp [Members.append_def, Members.moved, hfactory]
      · simpa [Members.append_def, Members.moved, Field.moved, Function.comp_def] using hfields

end Render

/-! ### Methods -/

/-- A line of code behind blanks. -/
theorem codeBlock_inline {indent cs : List Char} (hindent : IsIndent indent)
    (h : ∀ c ∈ cs, IsInline c) : IsLine (indent ++ cs) ∧ CodeBlock (indent ++ cs) none := by
  obtain ⟨hblank, hfeed, hreturn⟩ := hindent
  refine ⟨⟨?_, ?_⟩, .append (.of_blank hblank) (.of_passes (.plain fun c hc => ?_))⟩
  · rw [mem_append]
    exact fun hmem => hmem.elim hfeed fun hmem => (h _ hmem).2.2.2.1 rfl
  · rw [mem_append]
    exact fun hmem => hmem.elim hreturn fun hmem => (h _ hmem).2.2.2.2 rfl
  · exact ⟨(h c hc).1, (h c hc).2.1, (h c hc).2.2.1⟩

theorem CodeBlock.unlines {ls : List (List Char)} (h : ∀ line ∈ ls, CodeBlock line none) :
    CodeBlock (unlines ls) none := by
  induction ls with
  | nil => exact .nil none
  | cons line ls ih =>
    obtain ⟨hline, hls⟩ := forall_mem_cons.mp h
    have hfeed : CodeBlock line (some '\n') := by
      obtain ⟨hcells, hafter⟩ := Lex.cells_lineEnd .code line
      exact ⟨hafter.trans hline.ends, by rw [hcells]; exact hline.nested⟩
    rw [unlines_cons]
    exact hfeed.append (.cons (by decide) (by decide) (by decide) (ih hls))

/-- Lines of code between braces, where the closing one is indented. -/
theorem CodeBlock.body {ls : List (List Char)} {close : List Char}
    (h : ∀ line ∈ ls, CodeBlock line none) (hclose : Blank close) :
    CodeBlock ('\n' :: (Text.unlines ls ++ close)) (some '}') :=
  .cons (by decide) (by decide) (by decide) (((CodeBlock.unlines h).unlines_next _).append (.of_blank hclose))

/-- A parameter that is declared with a type that is no modifier. -/
def Slot.Declared (slot : Slot) : Prop :=
  IsName slot.name.toList ∧ ∃ hint, IsTypeOf paramModifiers hint ∧
    slot.declaration.toList = declText hint slot.name.toList

theorem Slot.Declared.listable {slot : Slot} (h : slot.Declared) :
    Listable slot.declaration.toList ∧ ¬ EndsInComment slot.declaration.toList ∧
      Entry.ofText slot.declaration.toList = ⟨slot.declaration.toList, slot.declaration.toList⟩ ∧
      '\r' ∉ slot.declaration.toList := by
  obtain ⟨hname, hint, hhint, htext⟩ := h
  have hqualified : ∀ cs ∈ hint, IsQualified cs := fun cs hcs => (hhint cs hcs).1
  have hflat := isFlat_declText hqualified hname
  have hne : declText hint slot.name.toList ≠ [] := by
    obtain ⟨c, rest, heq, -⟩ := exists_declText hint slot.name.toList hqualified
    exact heq ▸ cons_ne_nil _ _
  rw [htext]
  obtain ⟨hlistable, hends, hentry⟩ := Listable.of_flat (trim_declText hqualified hname) hne hflat
  exact ⟨hlistable, hends, hentry, fun hmem => (hflat _ hmem).line.2 rfl⟩

/-- The parameter that a slot declares. -/
theorem Slot.Declared.param {slot : Slot} (h : slot.Declared) :
    ∃ param, Param.of? slot.declaration.toList slot.declaration.toList = some param ∧
      param.name = slot.name ∧ param.promoted = false := by
  obtain ⟨hname, hint, hhint, htext⟩ := h
  rw [htext]
  exact ⟨_, Param.of?_declText hhint hname _, String.ofList_toList, rfl⟩

/-- Declared parameters are read in order. -/
theorem exists_params {slots : List Slot} (h : ∀ slot ∈ slots, slot.Declared) :
    ∃ params, ((slots.map (·.declaration.toList)).map Entry.ofText).filterMap
        (fun entry => Param.of? entry.text entry.masked) = params ∧
      params.map (·.name) = slots.map (·.name) ∧ ∀ param ∈ params, param.promoted = false := by
  induction slots with
  | nil => exact ⟨[], rfl, rfl, nofun⟩
  | cons slot slots ih =>
    obtain ⟨hslot, hslots⟩ := forall_mem_cons.mp h
    obtain ⟨params, hparams, hnames, hpromoted⟩ := ih hslots
    obtain ⟨param, hparam, hname, hplain⟩ := hslot.param
    refine ⟨param :: params, ?_, by simp [hname, hnames], forall_mem_cons.mpr ⟨hplain, hpromoted⟩⟩
    rw [map_cons, map_cons, hslot.listable.2.2.1, filterMap_cons, hparam, hparams]

namespace Render

/-- A method behind its doc comment. -/
theorem DeclaresText.of_method {text : String} {doc : List String} {method : WrittenMethod}
    {head : MethodHead} (hdoc : IsComment (doc.map String.toList))
    (hreturn : ∀ line ∈ doc, '\r' ∉ line.toList) (h : method.Sound head)
    (hclosed : (!head.isFactory || h.layout.returnsClosed (.written method.lines)) = true)
    (htext : text.toList = joined (doc.map String.toList) ++ '\n' :: method.text)
    (hreturn' : '\r' ∉ method.text) : DeclaresText text (h.added.moved doc.length) := by
  have hboth := (Declares.comment hdoc).append (h.declares hclosed)
  rw [Members.empty_append, length_map] at hboth
  have hne : doc.map String.toList ≠ [] := by
    obtain ⟨⟨indent, opened, middle, closed, tail, heq, -⟩, -⟩ := hdoc
    exact heq ▸ cons_ne_nil _ _
  obtain ⟨hjoined, hne', -⟩ := pieces_spec method.text
  refine ⟨⟨_, by simp [hne], ?_, hboth⟩, ?_⟩
  · rw [htext, joined_append (by exact hne'), unlines_eq_joined hne, WrittenMethod.lines, hjoined]
    simp
  · rw [htext, mem_append, mem_cons]
    rintro (hmem | hmem | hmem)
    · rcases mem_joined hmem with hfeed | ⟨line, hline, hmem⟩
      · exact absurd hfeed (by decide)
      · obtain ⟨part, hpart, rfl⟩ := mem_map.mp hline
        exact hreturn part hpart hmem
    · exact absurd hmem (by decide)
    · exact hreturn' hmem

end Render

theorem Text.not_mem_listText {c : Char} {gap : List Char} {entries : List (List Char)}
    (hc : c ≠ ',') (hgap : c ∉ gap) (h : ∀ entry ∈ entries, c ∉ entry) : c ∉ listText gap entries := by
  induction entries with
  | nil => simp [listText]
  | cons entry entries ih =>
    obtain ⟨hentry, hentries⟩ := forall_mem_cons.mp h
    by_cases hnil : entries = []
    · subst hnil
      rwa [listText_singleton]
    · rw [listText_cons hnil]
      simp [hentry, hc, hgap, ih hentries]

namespace WrittenMethod

/-- A method with a list of parameters and lines of code. -/
structure Lists where
  front : List Char
  lead : List Char
  gap : List Char
  tail : List Char
  after : List Char
  close : List Char
  entries : List (List Char)
  lines : List (List Char)

/-- The method that consists of lists. -/
def ofLists (lists : Lists) : WrittenMethod :=
  ⟨lists.front, lists.lead ++ (listText lists.gap lists.entries ++ lists.tail), lists.after,
    '\n' :: (unlines lists.lines ++ lists.close), []⟩

namespace Lists

variable {lists : Lists} {head : MethodHead}

/-- Whether lists make up a method: what stands between them is blank, and the entries and
lines are closed. -/
structure Writable (lists : Lists) (head : MethodHead) : Prop where
  starts : StartsMethod lists.front head
  no_return : '\r' ∉ lists.front
  gaps : IsGap lists.lead ∧ IsGap lists.gap ∧ IsGap lists.tail ∧ IsGap lists.after
  close : IsIndent lists.close
  ne_nil : lists.entries ≠ []
  entries : ∀ entry ∈ lists.entries, Listable entry ∧ ¬ EndsInComment entry ∧ '\r' ∉ entry
  lines : ∀ line ∈ lists.lines, IsLine line ∧ CodeBlock line none

theorem Writable.reads (h : lists.Writable head) :
    (EntryList.ofCells (Lex.code.cells (ofLists lists).params (some ')'))).entries =
        lists.entries.map Entry.ofText ∧
      CodeBlock (ofLists lists).params (some ')') ∧
      NestedIn '(' ')' 0 (Lex.code.cells (ofLists lists).params (some ')')).code = true := by
  obtain ⟨hlead, hgap, htail, -⟩ := h.gaps
  obtain ⟨hread, hends, hround, -, hcurly⟩ := @reads_listText lists.gap lists.tail lists.lead
    (some ')') lists.entries hgap.1 (.inl htail.1) (by simp [Lex.Inert]) h.ne_nil
    (fun entry hentry => ⟨(h.entries entry hentry).1, (h.entries entry hentry).2.1⟩) hlead.1
  exact ⟨hread, ⟨hends, hcurly⟩, hround⟩

theorem Writable.sound (h : lists.Writable head) : (ofLists lists).Sound head := by
  obtain ⟨-, hparams, hround⟩ := h.reads
  obtain ⟨-, -, -, hafter, -⟩ := h.gaps
  refine ⟨h.starts, hparams, hround, .blank hafter, fun hmem => ?_,
    .body (fun line hline => (h.lines line hline).2) h.close.1, ?_, nofun⟩
  · rw [ofLists, (Lex.cells_plain _ hafter.isPlain).1, code_map_show] at hmem
    exact hafter.not_mem (by decide) hmem
  · show CodeBlock ['\n'] none
    exact .of_passes (.plain (by decide))

/-- The text of a method: its signature and then its lines. -/
theorem text_eq (lists : Lists) :
    (ofLists lists).text = (lists.front ++ '(' :: ((lists.lead ++ (listText lists.gap lists.entries ++
        lists.tail)) ++ ')' :: (lists.after ++ ['{']))) ++
      '\n' :: joined (lists.lines ++ [lists.close ++ ['}']]) := by
  rw [joined_append (by simp)]
  simp [WrittenMethod.text, ofLists]

theorem Writable.no_return_text (h : lists.Writable head) : '\r' ∉ (ofLists lists).text := by
  obtain ⟨hlead, hgap, htail, hafter⟩ := h.gaps
  have hlist : '\r' ∉ listText lists.gap lists.entries :=
    not_mem_listText (by decide) hgap.2 fun entry hentry => (h.entries entry hentry).2.2
  have hlines : '\r' ∉ joined (lists.lines ++ [lists.close ++ ['}']]) := by
    intro hmem
    rcases mem_joined hmem with hfeed | ⟨line, hline, hmem⟩
    · exact absurd hfeed (by decide)
    · rcases mem_append.mp hline with hline | hline
      · exact (h.lines line hline).1.2 hmem
      · rw [mem_singleton.mp hline] at hmem
        simp [h.close.2.2] at hmem
  rw [text_eq]
  simp [h.no_return, hlead.2, hlist, htail.2, hafter.2, hlines]

end Lists

end WrittenMethod

/-! ### What the roles require -/

/-- A parameter of a role that can be declared, passed on and documented. -/
structure LeadingParam.Writable (param : LeadingParam) : Prop where
  declared : param.slot.Declared
  expression : param.expression.toList = declText none param.slot.name.toList
  docType : IsDoc param.docType
  description : IsDoc param.description

/-- Conventions whose parameters and statements can be written. -/
structure Conventions.Writable (conventions : Conventions) : Prop where
  leading : ∀ param ∈ conventions.leadingParams, param.Writable
  preamble : ∀ statement ∈ conventions.preamble, ∀ c ∈ statement.toList, IsInline c ∧ c ≠ '='
  factory : conventions.factoryParams = conventions.leadingParams.map (·.declaration)
  -- No blank in the signature of a factory stands in front of what could be a keyword.
  quiet : NoneBehindBlank 'n' (listText [' ']
    ("$container".toList :: conventions.factoryParams.map String.toList))
  inline : ∀ c ∈ listText [' '] ("$container".toList :: conventions.factoryParams.map String.toList),
    IsInline c ∧ c ≠ '-'

theorem LeadingParam.Writable.of {param : LeadingParam} (hint : Option (List Char))
    (hname : IsName param.slot.name.toList) (hhint : IsTypeOf paramModifiers hint)
    (hdeclaration : param.declaration.toList = declText hint param.slot.name.toList)
    (hexpression : param.expression.toList = declText none param.slot.name.toList)
    (hdoc : IsDoc param.docType ∧ IsDoc param.description) : param.Writable :=
  ⟨⟨hname, hint, hhint, hdeclaration⟩, hexpression, hdoc.1, hdoc.2⟩

theorem Role.writable_conventions {role : Role} {conventions : Conventions}
    (h : role.conventions? = some conventions) : conventions.Writable := by
  cases role with
  | baseClass =>
    cases h
    exact ⟨nofun, nofun, rfl, by decide +kernel, by decide +kernel⟩
  | pluginFactory =>
    cases h
    refine ⟨?_, ?_, rfl, by decide +kernel, by decide +kernel⟩
    · simp only [Conventions.pluginFactory, forall_mem_cons, not_mem_nil, false_implies,
        implies_true, and_true]
      refine ⟨.of (some "array".toList) ?_ ?_ ?_ ?_ ?_, .of none ?_ nofun ?_ ?_ ?_,
        .of none ?_ nofun ?_ ?_ ?_⟩
      rotate_left
      · intro cs hcs
        cases hcs
        decide +kernel
      all_goals decide +kernel
    · intro statement hstatement
      cases hstatement
      decide +kernel
  | other tag => cases h

end ServiceInjection

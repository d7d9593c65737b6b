import Mathlib.Tactic.Tauto
import ServiceInjection.Proofs.Outline.WrittenHeads

/-!
# Outline.FoundMembers

Which members of a class are found. The walk over a class body jumps over whole lines and
keeps a brace depth of its own. The depth never keeps it from a member: where a line starts
directly in the class, the walk takes it for the depth of the members if it reads it at all
(`MemberScan.Walked.depth`). The jumps do: a line that starts with a comment is passed up to
the end of the line on which the comment ends, with the code behind the comment. So a line
that starts directly in the class, outside the members, constants, comments and attributes
that start on lines above it, is found to declare its method or its property exactly if it
does not itself start with a comment or consist of attributes
(`Outline.records_iff`).
-/

namespace ServiceInjection

open Text List

variable {cs rest behind code : List Char}

/-! ### Kinds of members

A line is tried for a trait use, then for a method, then for a property. No line is two of these,
so that the order does not matter. -/

/-- Whether a text starts with modifiers of a method, the keyword and a name. -/
inductive FunctionWords : List Char → Prop
  | keyword {rest behind : List Char} {hit : List Char × List Char}
      (hblanks : someBlanks rest = some behind)
      (hname : word (blanks (skipChar '&' behind)) = some hit) :
      FunctionWords ("function".toList ++ rest)
  | modifier {w : String} {rest behind : List Char} (hw : w ∈ methodModifiers)
      (hblanks : someBlanks rest = some behind) (hbehind : FunctionWords behind) :
      FunctionWords (w.toList ++ rest)

theorem FunctionWords.of_skipModifiers {hit : List Char × List Char}
    (hkeyword : literal "function" (skipModifiers methodModifiers cs) = some rest)
    (hblanks : someBlanks rest = some behind)
    (hname : word (blanks (skipChar '&' behind)) = some hit) : FunctionWords cs := by
  have hstop : ∀ {cs : List Char}, literal "function" cs = some rest → FunctionWords cs := by
    intro cs hcs
    rw [literal_eq_some.mp hcs]
    exact .keyword hblanks hname
  fun_induction skipModifiers methodModifiers cs with
  | case1 cs _ => exact hstop hkeyword
  | case2 cs next hnext hlt ih =>
    obtain ⟨⟨w, tail⟩, hhit, hblanks'⟩ := Option.bind_eq_some_iff.mp hnext
    obtain ⟨w', hw, hw'⟩ := exists_of_findSome?_eq_some hhit
    obtain ⟨tail', htail, heq⟩ := Option.map_eq_some_iff.mp hw'
    cases heq
    rw [literal_eq_some.mp htail]
    exact .modifier hw hblanks' (ih hkeyword)
  | case3 cs _ _ _ => exact hstop hkeyword

theorem FunctionWords.of_head {head : MethodHead} (h : MethodHead.of? code = some head) :
    FunctionWords (skipAttributes (blanks code)) := by
  simp only [MethodHead.of?, Option.bind_eq_bind, Option.bind_eq_some_iff] at h
  obtain ⟨rest, hkeyword, behind, hblanks, hit, hname, -⟩ := h
  exact .of_skipModifiers hkeyword hblanks hname

/-- The words of a method head are words. -/
theorem isName_methodModifiers : ∀ w ∈ methodModifiers, IsName w.toList := by decide

theorem FunctionWords.head_ne (h : FunctionWords cs) : cs.head? ≠ some '$' := by
  cases h with
  | keyword => simp
  | modifier hw =>
    obtain ⟨hne, hall⟩ := isName_methodModifiers _ hw
    obtain ⟨c, rest, hcons⟩ := exists_cons_of_ne_nil hne
    rw [hcons, cons_append, head?_cons]
    rintro ⟨⟩
    exact absurd (hall '$' (hcons ▸ mem_cons_self)) (by decide)

/-- A word with something other than a `$` behind its blanks declares no variable. -/
theorem typedName_eq_none {w : List Char} (hw : IsName w) (hblanks : someBlanks rest = some behind)
    (hbehind : behind.head? ≠ some '$') (front : List Char) :
    typedName false front (w ++ rest) = none := by
  have hdollar : ∀ {cs : List Char}, cs.head? ≠ some '$' → literal "$" cs = none := by
    intro cs hcs
    cases cs with
    | nil => rfl
    | cons c cs =>
      exact literal_eq_none (show "$".toList = '$' :: [] from rfl) fun h =>
        hcs (by rw [head?_cons, ← h])
  have hfirst : ∀ c ∈ (w ++ rest).head?, isWord c = true := by
    intro c hc
    obtain ⟨d, tail, rfl⟩ := exists_cons_of_ne_nil hw.1
    cases hc
    exact hw.2 _ mem_cons_self
  have hskip : skipChar '?' (w ++ rest) = w ++ rest := by
    cases hcs : w ++ rest with
    | nil => rfl
    | cons c cs =>
      refine if_neg fun hc => absurd (hfirst c (by rw [hcs]; rfl)) ?_
      rw [← beq_iff_eq.mp hc]
      decide
  have hrun : run isTypeChar (w ++ rest) = some (w, rest) := by
    refine run_append hw.1 (fun c hc => isTypeChar_of_isNameChar (isNameChar_of_isWord (hw.2 c hc)))
      fun c hc => ?_
    obtain ⟨rest, rfl⟩ := head?_eq_some_iff.mp hc
    have hblank : isBlank c = true := by
      by_contra hnot
      simp [someBlanks, hnot] at hblanks
    exact not_isTypeChar_of_isBlank hblank
  have hnone : literal "$" (w ++ rest) = none := hdollar fun h => absurd (hfirst '$' h) (by decide)
  simp [typedName, typeHint, hskip, hrun, hblanks, hdollar hbehind, hnone]

theorem someBlanks_head (h : someBlanks rest = some behind) : literal "(" rest = none := by
  cases rest with
  | nil => rfl
  | cons c rest =>
    refine literal_eq_none (show "(".toList = '(' :: [] from rfl) ?_
    rintro rfl
    simp [someBlanks, show isBlank '(' = false by decide] at h

theorem modifier_of_word {w : String} (hblanks : someBlanks rest = some behind)
    (hw : ∀ rest, oneOf propertyModifiers (w.toList ++ rest) = some (w, rest)) :
    modifier propertyModifiers (w.toList ++ rest) = some behind := by
  simp [modifier, hw, someBlanks_head hblanks, hblanks]

/-- Of the modifiers of a method, a property takes those but two. -/
theorem modifier_methodModifier {w : String} (hw : w ∈ methodModifiers)
    (hblanks : someBlanks rest = some behind) :
    modifier propertyModifiers (w.toList ++ rest) = some behind ∨
      modifier propertyModifiers (w.toList ++ rest) = none := by
  simp only [methodModifiers, mem_cons, not_mem_nil, or_false] at hw
  rcases hw with rfl | rfl | rfl | rfl | rfl | rfl
  · exact .inl (modifier_of_word hblanks fun _ => rfl)
  · exact .inl (modifier_of_word hblanks fun _ => rfl)
  · exact .inl (modifier_of_word hblanks fun _ => rfl)
  · exact .inl (modifier_of_word hblanks fun _ => rfl)
  · exact .inr rfl
  · exact .inr rfl

/-- Nothing of a method is read as a property. -/
theorem FunctionWords.declarationAfter_eq_none (h : FunctionWords cs) (front : List Char) :
    declarationAfter propertyModifiers false front cs = none := by
  induction h generalizing front with
  | @keyword rest behind hit hblanks hname =>
    have hbehind : behind.head? ≠ some '$' := by
      intro hhead
      obtain ⟨tail, rfl⟩ := head?_eq_some_iff.mp hhead
      simp [skipChar, blanks, show isBlank '$' = false by decide, word, run,
        show isWord '$' = false by decide] at hname
    rw [declarationAfter, show ServiceInjection.modifier propertyModifiers ("function".toList ++ rest) = none from rfl]
    exact typedName_eq_none (by decide) hblanks hbehind front
  | @modifier w rest behind hw hblanks hbehind ih =>
    have htyped : ∀ front, typedName false front (w.toList ++ rest) = none :=
      typedName_eq_none (isName_methodModifiers w hw) hblanks hbehind.head_ne
    rw [declarationAfter]
    rcases modifier_methodModifier hw hblanks with hmodifier | hmodifier
    · rw [hmodifier]
      simp only [ih, htyped, Option.none_or, ite_self]
    · rw [hmodifier]
      exact htyped front

/-- **A method is no property.** -/
theorem MethodHead.propertyDecl_eq_none {head : MethodHead} (h : MethodHead.of? code = some head) :
    propertyDecl code = none := by
  have hwords := FunctionWords.of_head h
  rw [propertyDecl]
  generalize skipAttributes (blanks code) = cs at hwords
  cases hwords with
  | keyword => rfl
  | modifier hw hblanks hbehind =>
    rcases modifier_methodModifier hw hblanks with hmodifier | hmodifier
    · simp [hmodifier, hbehind.declarationAfter_eq_none]
    · simp [hmodifier]

/-- A property is no trait use. -/
theorem not_isTraitUse_of_propertyDecl {decl : VariableDecl} (h : propertyDecl code = some decl) :
    isTraitUse code = false := by
  cases huse : literal "use" (blanks code) with
  | none => simp [isTraitUse, huse]
  | some rest =>
    rw [propertyDecl, literal_eq_some.mp huse] at h
    simp [skipAttributes, modifier, oneOf, propertyModifiers, literal, literalChars] at h

/-- A blank line has neither a method nor a property. -/
theorem of_isBlankLine (h : isBlankLine code = true) :
    MethodHead.of? code = none ∧ propertyDecl code = none := by
  have hnil : blanks code = [] :=
    dropWhile_eq_nil_iff.mpr fun c hc => all_eq_true.mp h c hc
  constructor
  · simp [MethodHead.of?, hnil, skipAttributes, skipModifiers, oneOf, literal, literalChars]
  · simp [propertyDecl, hnil, skipAttributes, modifier, oneOf, propertyModifiers, literal, literalChars]

/-! ### Lines of members

The walk only adds members, and none that starts above the line it is at (`Grows`). What is
recorded above a line is therefore settled when the walk gets there. -/

namespace Members

/-- Whether line `n` starts in a member that starts on a line above it. -/
def Covers (source : Source) (members : Members) (n : Nat) : Prop :=
  ∃ span ∈ members.spans source, span.first < n ∧ n ≤ span.last

instance (source : Source) (members : Members) (n : Nat) : Decidable (members.Covers source n) :=
  List.decidableBEx ..

/-- Whether the method with the given head is recorded on line `n`: with its name and whether
it is static, and as the constructor or the factory if there is none before. -/
structure RecordsMethod (source : Source) (members : Members) (n : Nat) (head : MethodHead) :
    Prop where
  method : ∃ method ∈ members.methods, method.name = head.name ∧ method.span.first = n ∧
    method.isStatic = head.isStatic
  constructor : sameName head.name "__construct" = true →
    (MethodLayout.at? source ⟨n, head.paren⟩).isSome → members.constructor.isSome
  factory : head.name = "create" → head.isStatic = true →
    (MethodLayout.at? source ⟨n, head.paren⟩).isSome → members.factory.isSome

/-- Whether a declared property is recorded on line `n`. -/
def RecordsField (members : Members) (n : Nat) (decl : VariableDecl) : Prop :=
  ∃ field ∈ members.fields, field.name = String.ofList decl.name ∧ field.line = n ∧
    field.typeHint = decl.typeHint.map String.ofList ∧ field.promoted = false

/-- Whether members are kept and others added, none of which starts above line `n`. -/
structure Grows (source : Source) (n : Nat) (old new : Members) : Prop where
  fields : old.fields ⊆ new.fields
  methods : old.methods ⊆ new.methods
  constructor : old.constructor.isSome → new.constructor.isSome
  factory : old.factory.isSome → new.factory.isSome
  kept : old.spans source ⊆ new.spans source
  added : ∀ span ∈ new.spans source, span ∈ old.spans source ∨ n ≤ span.first

variable {source : Source} {n m : Nat} {old new members : Members}

/-- Whether members are other members with some added that take the lines of one member. -/
structure Adds (source : Source) (span : LineSpan) (old new : Members) : Prop where
  fields : ∃ fields, new.fields = old.fields ++ fields ∧
    ∀ field ∈ fields, field.promoted = false → isConstant (source.code field.line) = false
  methods : ∃ methods, new.methods = old.methods ++ methods
  constructor : old.constructor.isSome → new.constructor.isSome
  factory : old.factory.isSome → new.factory.isSome
  spans : ∀ other, other ∈ new.spans source ↔ other ∈ old.spans source ∨ other = span

theorem adds_record (members : Members) {entry : Recorded} {doc : Option LineSpan}
    (h : entry.ReadOn source n doc) :
    members.Adds source (entry.span source) (members.record source entry) := by
  have hpromoted : ∀ {method : Method} {field : Field},
      field ∈ (Recorded.method method).fields source → field.promoted = true := by
    intro method field hfield
    obtain ⟨ctor, -, hfield⟩ := mem_flatMap.mp hfield
    obtain ⟨param, -, rfl⟩ := mem_map.mp hfield
    rfl
  cases h with
  | traitUse =>
    refine ⟨⟨[], (append_nil _).symm, nofun⟩, ⟨[], (append_nil _).symm⟩, id, id, fun other => ?_⟩
    simp only [mem_spans, record, mem_append, mem_singleton, Recorded.span]
    exact or_right_comm
  | @method head hhead =>
    refine ⟨⟨_, rfl, fun field hfield hnot => ?_⟩, ⟨_, rfl⟩, ?_, ?_, fun other => ?_⟩
    · rw [hpromoted hfield] at hnot
      cases hnot
    · exact fun hsome => by simp [record, hsome]
    · exact fun hsome => by simp [record, hsome]
    · simp only [mem_spans, record, mem_append, mem_singleton, Recorded.span]
      grind
  | field hdecl hconstant =>
    refine ⟨⟨_, rfl, ?_⟩, ⟨[], (append_nil _).symm⟩, id, id, fun other => ?_⟩
    · exact fun field hfield _ => mem_singleton.mp hfield ▸ hconstant
    · simp only [mem_spans, record, mem_append, mem_singleton, Recorded.span, or_and_right,
        exists_or, exists_eq_left, true_and, or_assoc, @eq_comm _ other]

theorem Adds.grows {span : LineSpan} (h : old.Adds source span new) :
    old.Grows source span.first new where
  fields := h.fields.elim fun _ hfields => hfields.1 ▸ subset_append_left _ _
  methods := h.methods.elim fun _ heq => heq ▸ subset_append_left _ _
  constructor := h.constructor
  factory := h.factory
  kept := fun span hspan => (h.spans span).mpr (.inl hspan)
  added := fun span hspan => by
    rcases (h.spans span).mp hspan with hmem | rfl
    · exact .inl hmem
    · exact .inr (Nat.le_refl _)

theorem Grows.refl (source : Source) (n : Nat) (members : Members) :
    members.Grows source n members :=
  ⟨fun _ h => h, fun _ h => h, id, id, fun _ h => h, fun _ h => .inl h⟩

theorem Grows.trans (h : old.Grows source n members) (h' : members.Grows source m new)
    (hle : n ≤ m) : old.Grows source n new where
  fields := fun _ hmem => h'.fields (h.fields hmem)
  methods := fun _ hmem => h'.methods (h.methods hmem)
  constructor := h'.constructor ∘ h.constructor
  factory := h'.factory ∘ h.factory
  kept := fun _ hmem => h'.kept (h.kept hmem)
  added := fun span hspan => by
    rcases h'.added span hspan with hmem | hfirst
    · exact h.added span hmem
    · exact .inr (Nat.le_trans hle hfirst)

theorem Grows.covers (h : old.Grows source n new) (hcovers : old.Covers source m) :
    new.Covers source m := by
  obtain ⟨span, hspan, hlines⟩ := hcovers
  exact ⟨span, h.kept hspan, hlines⟩

/-- What is added later covers no line above. -/
theorem Grows.not_covers (h : old.Grows source n new) (hle : m ≤ n)
    (hcovers : ¬ old.Covers source m) : ¬ new.Covers source m := by
  rintro ⟨span, hspan, hfirst, hlast⟩
  rcases h.added span hspan with hmem | hadded
  · exact hcovers ⟨span, hmem, hfirst, hlast⟩
  · omega

theorem Grows.recordsMethod {k : Nat} {head : MethodHead} (h : old.Grows source n new)
    (hrecords : old.RecordsMethod source k head) : new.RecordsMethod source k head := by
  obtain ⟨⟨method, hmem, hmethod⟩, hctor, hfactory⟩ := hrecords
  exact ⟨⟨method, h.methods hmem, hmethod⟩, fun hname hlayout => h.constructor (hctor hname hlayout),
    fun hname hstatic hlayout => h.factory (hfactory hname hstatic hlayout)⟩

theorem Grows.recordsField {k : Nat} {decl : VariableDecl} (h : old.Grows source n new)
    (hrecords : old.RecordsField k decl) : new.RecordsField k decl := by
  obtain ⟨field, hmem, hfield⟩ := hrecords
  exact ⟨field, h.fields hmem, hfield⟩

end Members

namespace MemberScan

variable {source : Source} {limit n : Nat} {scan scan' : MemberScan}

theorem step_grows (source : Source) (limit : Nat) (scan : MemberScan) (n : Nat) :
    scan.members.Grows source n (step source limit scan n).members := by
  by_cases hresume : scan.resume ≤ n
  · generalize hscan : step source limit scan n = scan'
    cases hscan ▸ step_reading source limit hresume with
    | passes hmembers => exact hmembers ▸ .refl source n _
    | records hentry => exact hentry.spec.1 ▸ (Members.adds_record _ hentry).grows
  · rw [step_of_lt limit (Nat.lt_of_not_le hresume)]
    exact .refl source n _

/-- The lines from line `n` on keep the members found above and add none that start above. -/
theorem foldl_grows (source : Source) (limit n k : Nat) (scan : MemberScan) :
    scan.members.Grows source n
      ((List.range' n k).foldl (step source limit) scan).members := by
  induction k generalizing n scan with
  | zero => exact .refl source n _
  | succ k ih =>
    rw [range'_succ, foldl_cons]
    exact (step_grows source limit scan n).trans (ih (n + 1) _) (Nat.le_succ n)

/-! ### The walk

`Walked` is the invariant of the walk. The walk may lose count of the braces, but only downwards:
it never takes a line directly in the class for one inside a block. -/

/-- What holds in front of line `n` of a body that opens at `opening`. The depth that the
walk counts is not above the real one, where the walk goes on; no member ends behind the
lines that are read; and the lines that it jumps over lie in a member or are hidden by
something that starts above, outside the members. -/
structure Walked (source : Source) (opening : Spot) (limit n : Nat) (scan : MemberScan) : Prop where
  depth : scan.depth ≤ 0 ∨
    scan.resume ≤ n ∧ scan.depth < source.depthBefore n - source.depthAt opening
  ended : ∀ m, scan.resume ≤ m → ¬ scan.members.Covers source m
  hidden : ∀ m, n ≤ m → m < scan.resume → scan.members.Covers source m ∨
    ∃ k, opening.line < k ∧ k < n ∧ ¬ scan.members.Covers source k ∧ source.Hides limit k m
  shown : ∀ span ∈ scan.members.spans source, ¬ source.Hides limit span.first span.first
  declared : ∀ field ∈ scan.members.fields, field.promoted = false →
    isConstant (source.code field.line) = false

variable {opening : Spot}

theorem walked_start (source : Source) (opening : Spot) (limit n : Nat) :
    Walked source opening limit n {} where
  depth := .inl (Int.le_refl 0)
  ended := by
    rintro m - ⟨span, hspan, -⟩
    exact absurd hspan not_mem_nil
  hidden := fun m _ hlt => absurd hlt (Nat.not_lt_zero m)
  shown := fun span hspan => absurd hspan not_mem_nil
  declared := fun field hfield => absurd hfield not_mem_nil

/-- A line that the walk reads keeps what holds, if it starts within the body. -/
theorem Walked.read (h : Walked source opening limit n scan) (hline : opening.line < n)
    (hopen : source.depthAt opening < source.depthBefore n) (hresume : scan.resume ≤ n)
    (hreading : Reading source limit n scan scan') :
    Walked source opening limit (n + 1) scan' := by
  have hclear := h.ended n hresume
  cases hreading with
  | passes hmembers _ _ hhides hdepth =>
    refine ⟨?_, ?_, ?_, hmembers ▸ h.shown, hmembers ▸ h.declared⟩
    · rcases hdepth with ⟨heq, hle⟩ | ⟨heq, hnext⟩
      · exact .inl (heq ▸ hle)
      · refine .inr ⟨Nat.le_of_eq hnext, ?_⟩
        rw [heq, Source.depthBefore]
        rcases h.depth with hle | ⟨-, hlt⟩ <;> omega
    · rw [hmembers]
      exact fun m hm => h.ended m (by omega)
    · rw [hmembers]
      exact fun m hm hlt => .inr ⟨n, hline, Nat.lt_succ_self n, hclear, hhides m hm hlt⟩
  | @records entry hentry _ hshown hdepth =>
    have hadds := Members.adds_record scan.members hentry
    have hfirst := hentry.spec.1
    have hlast := hentry.spec.2
    refine ⟨.inl hdepth, ?_, fun m hm hlt => .inl ?_, ?_, ?_⟩
    · rintro m hm ⟨span, hspan, hfirst, hlast⟩
      rcases (hadds.spans span).mp hspan with hmem | rfl
      · exact h.ended m (by grind) ⟨span, hmem, hfirst, hlast⟩
      · exact absurd hm (Nat.not_le.mpr (Nat.lt_succ_of_le hlast))
    · exact ⟨_, (hadds.spans _).mpr (.inr rfl), hfirst ▸ hm, Nat.le_of_lt_succ hlt⟩
    · intro span hspan
      rcases (hadds.spans span).mp hspan with hmem | rfl
      · exact h.shown span hmem
      · exact hfirst ▸ hshown
    · obtain ⟨fields, hfields, hdeclared⟩ := hadds.fields
      rw [hfields]
      intro field hfield
      rcases mem_append.mp hfield with hmem | hmem
      · exact h.declared field hmem
      · exact hdeclared field hmem

theorem Walked.step (h : Walked source opening limit n scan) (hline : opening.line < n)
    (hopen : source.depthAt opening < source.depthBefore n) :
    Walked source opening limit (n + 1) (step source limit scan n) := by
  by_cases hresume : scan.resume ≤ n
  · exact h.read hline hopen hresume (step_reading source limit hresume)
  · rw [step_of_lt limit (Nat.lt_of_not_le hresume)]
    refine ⟨.inl ?_, h.ended, fun m hm hlt => ?_, h.shown, h.declared⟩
    · rcases h.depth with hle | ⟨hle, -⟩
      · exact hle
      · exact absurd hle hresume
    · rcases h.hidden m (Nat.le_of_succ_le hm) hlt with hcovers | ⟨k, hk, hlt, hclear, hhides⟩
      · exact .inl hcovers
      · exact .inr ⟨k, hk, Nat.lt_succ_of_lt hlt, hclear, hhides⟩

/-- The state of the walk in front of line `n`. -/
def before (source : Source) (openLine limit n : Nat) : MemberScan :=
  (List.range' (openLine + 1) (n - (openLine + 1))).foldl (MemberScan.step source limit) {}

theorem before_succ (source : Source) (limit : Nat) {openLine n : Nat} (h : openLine < n) :
    before source openLine limit (n + 1) =
      MemberScan.step source limit (before source openLine limit n) n := by
  rw [before, show n + 1 - (openLine + 1) = n - (openLine + 1) + 1 by omega, range'_1_concat,
    foldl_append, show openLine + 1 + (n - (openLine + 1)) = n by omega]
  rfl

theorem walked_before {close : Spot} (hbrace : source.Holds opening '{')
    (hclose : source.matchingClose opening '{' '}' = some close) (limit : Nat)
    (hopen : opening.line < n) (hn : n ≤ close.line) :
    Walked source opening limit n (before source opening.line limit n) := by
  induction n, hopen using Nat.le_induction with
  | base =>
    rw [before, Nat.sub_self]
    exact walked_start source opening limit _
  | succ n hopen ih =>
    rw [before_succ source limit hopen]
    exact (ih (Nat.le_of_succ_le hn)).step hopen
      (Source.depthAt_lt_depthBefore hbrace hclose hopen (Nat.le_of_succ_le hn))

/-- The body is walked to its end; from line `n` on the members above are kept. -/
theorem before_grows (source : Source) {openLine closeLine : Nat} (hopen : openLine < n)
    (hclose : n ≤ closeLine) :
    (before source openLine closeLine n).members.Grows source n
      (Members.ofBody source openLine closeLine) := by
  have hsplit : Source.span (openLine + 1) (closeLine - 1) =
      range' (openLine + 1) (n - (openLine + 1)) ++ range' n (closeLine - n) := by
    rw [Source.span,
      show closeLine - 1 + 1 - (openLine + 1) = n - (openLine + 1) + (closeLine - n) by omega,
      ← range'_append_1, show openLine + 1 + (n - (openLine + 1)) = n by omega]
  rw [Members.ofBody, hsplit, foldl_append]
  exact foldl_grows source closeLine n (closeLine - n) _

theorem ofBody_eq (source : Source) {openLine closeLine : Nat} (h : openLine < closeLine) :
    Members.ofBody source openLine closeLine =
      (before source openLine closeLine closeLine).members := by
  rw [Members.ofBody, before, Source.span,
    show closeLine - 1 + 1 - (openLine + 1) = closeLine - (openLine + 1) by omega]

/-- A line directly in the class is read at the depth of the members, unless it lies in a
member or is hidden. -/
theorem Walked.reads {members : Members} (h : Walked source opening limit n scan)
    (hdepth : source.depthBefore n = source.depthAt opening + 1)
    (hgrows : scan.members.Grows source n members) (houtside : ¬ members.Covers source n)
    (habove : ∀ k ∈ Source.span (opening.line + 1) (n - 1), ¬ members.Covers source k →
      ¬ source.Hides limit k n) :
    scan.resume ≤ n ∧ scan.depth ≤ 0 := by
  have hresume : scan.resume ≤ n := by
    by_contra hlt
    rcases h.hidden n (Nat.le_refl n) (Nat.lt_of_not_le hlt) with
      hcovers | ⟨k, hk, hkn, hclear, hhides⟩
    · exact houtside (hgrows.covers hcovers)
    · exact habove k (Source.mem_span.mpr (by omega))
        (hgrows.not_covers (Nat.le_of_lt hkn) hclear) hhides
  refine ⟨hresume, ?_⟩
  rcases h.depth with hle | ⟨-, hlt⟩ <;> omega

/-! ### Lines with a member

If a line is read, at the depth of the members, only the line itself decides. -/

/-- A line that is read at the depth of the members, and neither starts with a comment nor
consists of attributes, is read for the member on it. -/
theorem step_of_shown (hresume : scan.resume ≤ n) (hdepth : scan.depth ≤ 0)
    (hshown : ¬ source.Hides limit n n) (hblank : isBlankLine (source.code n) = false) :
    MemberScan.step source limit scan n = readMember source scan n := by
  have hcomment : startsWith "/*" (trimStart (source.raw n)) = false := by
    by_contra hstarts
    exact hshown (.inl ⟨by simpa using hstarts, le_commentEnd source n limit⟩)
  have hattribute : attributeEnd source n = none := by
    rw [Option.eq_none_iff_forall_ne_some]
    exact fun last hlast => hshown (.inr (.inl ⟨last, hlast, le_attributeEnd hlast⟩))
  simp [MemberScan.step, Nat.not_lt.mpr hresume, Int.not_lt.mpr hdepth, hcomment, hattribute, hblank]

theorem readMethod_records {head : MethodHead} (hhead : MethodHead.of? (source.code n) = some head)
    (scan : MemberScan) : (readMethod source scan n head).members.RecordsMethod source n head := by
  rw [readMethod_eq scan hhead]
  refine ⟨⟨_, mem_append_right _ mem_cons_self, rfl, rfl, rfl⟩, fun hname hlayout => ?_,
    fun hname hstatic hlayout => ?_⟩
  · simp [Members.record, Method.constructor?, Method.layout?, hhead, hname, hlayout]
  · simp [Members.record, Method.factory?, Method.layout?, hhead, hname, hstatic, hlayout]

theorem readMember_method {head : MethodHead} (hhead : MethodHead.of? (source.code n) = some head)
    (scan : MemberScan) : readMember source scan n = readMethod source scan n head := by
  simp [readMember, MethodHead.not_isTraitUse hhead, hhead]

theorem readMember_property {decl : VariableDecl} (hdecl : propertyDecl (source.code n) = some decl)
    (hconstant : isConstant (source.code n) = false) (scan : MemberScan) :
    readMember source scan n = readProperty source scan n decl := by
  have hhead : MethodHead.of? (source.code n) = none := by
    rw [Option.eq_none_iff_forall_ne_some]
    intro head hhead
    rw [MethodHead.propertyDecl_eq_none hhead] at hdecl
    cases hdecl
  simp [readMember, not_isTraitUse_of_propertyDecl hdecl, hhead, hconstant, hdecl]

end MemberScan

/-! ### Classes -/

/-- Where the brace stands that opens the body of a class. -/
def Outline.brace? (source : Source) (outline : Outline) : Option Spot := do
  let head ← Head.of? (source.code outline.decl.line)
  let glyph ← source.firstOf ⟨outline.decl.line, head.stop⟩ ['{', ';']
  some glyph.spot

/-- The braces of a class, and the members between them. -/
theorem Outline.of_brace {source : Source} {line : Nat} {outline : Outline} {brace : Spot}
    (h : Outline.ofDeclaration source line = some outline)
    (hbrace : outline.brace? source = some brace) :
    source.Holds brace '{' ∧ outline.decl.openBraceLine = brace.line ∧
      ∃ close, source.matchingClose brace '{' '}' = some close ∧
        outline.decl.closeBraceLine = close.line ∧
        (brace.line < close.line →
          outline.toMembers = Members.ofBody source brace.line close.line) := by
  obtain ⟨head, opening, close, hhead, hopening, hchar, hclose, -, -, rfl, hopenLine, hcloseLine,
    hmembers⟩ := Outline.of_ofDeclaration h
  obtain rfl : opening.spot = brace := by simpa [brace?, hhead, hopening] using hbrace
  refine ⟨hchar ▸ (Source.firstOf_spec hopening).1, hopenLine, close, hclose, hcloseLine, fun hlt => ?_⟩
  rw [hmembers, if_neg]
  simp only [beq_iff_eq]
  omega

/-- **Which members are found.** Take a line between the brace lines of a class that starts
directly in the class, outside the members above it, and is not hidden by a comment, an
attribute or a constant that starts above it outside the members. If a method starts on the line,
it is recorded exactly if the line does not start with a comment and does not consist of
attributes. If the line declares a property, this is recorded exactly if moreover the line
could not be a constant. -/
theorem Outline.records_iff {source : Source} {line n : Nat} {outline : Outline} {brace : Spot}
    (h : Outline.ofDeclaration source line = some outline)
    (hbrace : outline.brace? source = some brace)
    (hopen : outline.decl.openBraceLine < n) (hclose : n < outline.decl.closeBraceLine)
    (hdepth : source.depthBefore n = source.depthAt brace + 1)
    (houtside : ¬ outline.toMembers.Covers source n)
    (habove : ∀ k ∈ Source.span (outline.decl.openBraceLine + 1) (n - 1),
      ¬ outline.toMembers.Covers source k → ¬ source.Hides outline.decl.closeBraceLine k n) :
    (∀ head, MethodHead.of? (source.code n) = some head →
      (outline.toMembers.RecordsMethod source n head ↔
        ¬ source.Hides outline.decl.closeBraceLine n n)) ∧
    ∀ decl, propertyDecl (source.code n) = some decl →
      (outline.toMembers.RecordsField n decl ↔
        ¬ source.Hides outline.decl.closeBraceLine n n ∧ isConstant (source.code n) = false) := by
  obtain ⟨hholds, hopenLine, close, hmatch, hcloseLine, hmembers⟩ := Outline.of_brace h hbrace
  rw [hopenLine] at hopen habove
  rw [hcloseLine] at hclose habove ⊢
  rw [hmembers (Nat.lt_trans hopen hclose)] at houtside habove ⊢
  -- The walk reads the line, and at the depth of the members.
  have hwalked := MemberScan.walked_before hholds hmatch close.line hopen (Nat.le_of_lt hclose)
  obtain ⟨hresume, hlevel⟩ := hwalked.reads hdepth
    (MemberScan.before_grows source hopen (Nat.le_of_lt hclose)) houtside habove
  have hread : ¬ source.Hides close.line n n → isBlankLine (source.code n) = false →
      (MemberScan.before source brace.line close.line (n + 1)) = MemberScan.readMember source
        (MemberScan.before source brace.line close.line n) n := fun hshown hblank => by
    rw [MemberScan.before_succ source close.line hopen,
      MemberScan.step_of_shown hresume hlevel hshown hblank]
  have hkept := MemberScan.before_grows source (Nat.lt_succ_of_lt hopen) (Nat.succ_le_of_lt hclose)
  have hend := MemberScan.walked_before hholds hmatch close.line (Nat.lt_trans hopen hclose)
    (Nat.le_refl _)
  have hmembers := MemberScan.ofBody_eq source (Nat.lt_trans hopen hclose)
  refine ⟨fun head hhead => ⟨?_, fun hshown => ?_⟩, fun decl hdecl => ⟨?_, ?_⟩⟩
  · rintro ⟨⟨method, hmethod, -, rfl, -⟩, -⟩
    rw [hmembers] at hmethod
    exact hend.shown method.span (Members.mem_spans.mpr (.inr (.inl ⟨method, hmethod, rfl⟩)))
  · have hblank : isBlankLine (source.code n) = false := by
      by_contra hblank
      rw [(of_isBlankLine (by simpa using hblank)).1] at hhead
      cases hhead
    refine hkept.recordsMethod ?_
    rw [hread hshown hblank, MemberScan.readMember_method hhead]
    exact MemberScan.readMethod_records hhead _
  · rintro ⟨field, hfield, -, rfl, -, hpromoted⟩
    rw [hmembers] at hfield
    exact ⟨hend.shown ⟨field.line, source.lineOfFirst field.line ';'⟩
      (Members.mem_spans.mpr (.inr (.inr ⟨field, hfield, hpromoted, rfl⟩))),
      hend.declared field hfield hpromoted⟩
  · rintro ⟨hshown, hconstant⟩
    have hblank : isBlankLine (source.code n) = false := by
      by_contra hblank
      rw [(of_isBlankLine (by simpa using hblank)).2] at hdecl
      cases hdecl
    refine hkept.recordsField ?_
    rw [hread hshown hblank, MemberScan.readMember_property hdecl hconstant]
    exact ⟨_, mem_append_right _ mem_cons_self, rfl, rfl, rfl, rfl⟩

/-- A class with a trait use, a constant, a comment and attributes on several lines above a
property, and a factory below it. -/
def mixedMembers : Source := .ofText <| "<?php\nclass Page extends Base \x7b\n  use T \x7b\n" ++
  "    a as b;\n  \x7d\n  const A = [\n    1,\n  ];\n  /**\n   * Doc.\n   */\n  #[Inject(\n" ++
  "    'x',\n  )]\n  #[A] protected ?Mailer $mailer;\n\n  public static function create($c) \x7b\n" ++
  "    return new static($c);\n  \x7d\n\x7d\n"

theorem records_mixedMembers :
    ∃ outline, Outline.ofDeclaration mixedMembers 1 = some outline ∧
      (∃ decl, propertyDecl (mixedMembers.code 14) = some decl ∧
        outline.toMembers.RecordsField 14 decl) ∧
      ∃ head, MethodHead.of? (mixedMembers.code 16) = some head ∧ head.isStatic = true ∧
        outline.toMembers.RecordsMethod mixedMembers 16 head := by
  have hread : ∃ outline ∈ Outline.ofDeclaration mixedMembers 1,
      ∃ brace ∈ outline.brace? mixedMembers,
      (∀ n ∈ [14, 16], outline.decl.openBraceLine < n ∧ n < outline.decl.closeBraceLine ∧
        mixedMembers.depthBefore n = mixedMembers.depthAt brace + 1 ∧
        ¬ outline.toMembers.Covers mixedMembers n ∧
        (∀ k ∈ Source.span (outline.decl.openBraceLine + 1) (n - 1),
          ¬ outline.toMembers.Covers mixedMembers k →
            ¬ mixedMembers.Hides outline.decl.closeBraceLine k n) ∧
        ¬ mixedMembers.Hides outline.decl.closeBraceLine n n) ∧
      isConstant (mixedMembers.code 14) = false ∧ (propertyDecl (mixedMembers.code 14)).isSome ∧
      ∃ head ∈ MethodHead.of? (mixedMembers.code 16), head.isStatic = true := by
    decide +kernel
  obtain ⟨outline, houtline, brace, hbrace, hlines, hconstant, hdecl, head, hhead, hstatic⟩ := hread
  obtain ⟨decl, hdecl⟩ := Option.isSome_iff_exists.mp hdecl
  obtain ⟨hopen, hclose, hdepth, houtside, habove, hshown⟩ := hlines 14 (by decide)
  obtain ⟨hopen', hclose', hdepth', houtside', habove', hshown'⟩ := hlines 16 (by decide)
  refine ⟨outline, houtline, ⟨decl, hdecl, ?_⟩, head, hhead, hstatic, ?_⟩
  · exact ((Outline.records_iff houtline hbrace hopen hclose hdepth houtside habove).2 decl hdecl).mpr
      ⟨hshown, hconstant⟩
  · exact ((Outline.records_iff houtline hbrace hopen' hclose' hdepth' houtside' habove').1 head
      hhead).mpr hshown'

/-- A class with a property behind a comment. -/
def commentedProperty : Source := .ofText <| "<?php\nclass Page \x7b\n  /* note */ protected $mailer;\n" ++
  "  public function build() \x7b\n  \x7d\n\x7d\n"

/-- A property behind a comment on its line is missed, though it stands directly in the class
and nothing stands above it. -/
theorem missed_commentedProperty :
    ∃ outline ∈ Outline.ofDeclaration commentedProperty 1,
      ∃ brace ∈ outline.brace? commentedProperty,
      outline.decl.openBraceLine + 1 = 2 ∧ 2 < outline.decl.closeBraceLine ∧
        commentedProperty.depthBefore 2 = commentedProperty.depthAt brace + 1 ∧
        ¬ outline.toMembers.Covers commentedProperty 2 ∧
        (propertyDecl (commentedProperty.code 2)).map (·.name) = some "mailer".toList ∧
        outline.fields = [] := by
  decide +kernel

end ServiceInjection

import ServiceInjection.Proofs.Outline.MemberOrder

/-!
# Outline.Placement

Where the wiring methods of a class stand. The constructor and the factory are members of the
class, so they stand on lines of their own behind the line of the class brace, with their doc
comments (`Outline.Placed`).
-/

namespace ServiceInjection

open Text

variable {n brace : Nat} {source : Source} {layout : MethodLayout}

/-- A constructor behind line `brace`: its lines are in order, and its first line and
its last are not empty. -/
structure Constructor.Placed (source : Source) (brace : Nat) (ctor : Constructor) : Prop where
  brace_lt : brace < ctor.leadingLine
  leading_le : ctor.leadingLine ≤ ctor.startLine
  start_le : ctor.startLine ≤ ctor.endLine
  leading_ne : source.raw ctor.leadingLine ≠ []
  end_ne : source.raw ctor.endLine ≠ []

/-- The lines of the statement with which a factory returns a new object. -/
def Factory.returnSpan (factory : Factory) : Option LineSpan :=
  match factory.shape with
  | .newStatic _ _ _ returnLine returnEndLine => some ⟨returnLine, returnEndLine⟩
  | _ => none

/-- A factory behind line `brace`: its lines are in order, and its return statement
starts between them. -/
structure Factory.Placed (source : Source) (brace : Nat) (factory : Factory) : Prop where
  brace_lt : brace < factory.startLine
  start_le : factory.startLine ≤ factory.openBraceLine
  open_le : factory.openBraceLine ≤ factory.endLine
  return_le : ∀ span ∈ factory.returnSpan,
    factory.openBraceLine ≤ span.first ∧ span.first ≤ factory.endLine ∧ span.first ≤ span.last ∧
      source.raw span.first ≠ [] ∧ source.raw span.last ≠ []

/-- A search on a line without characters finds nothing. -/
theorem firstMatchFrom_ne_nil {α : Type} {allowed : Option Char → Bool}
    {recognize : List Char → Option (α × List Char)} {before : Option Char} {index : Nat}
    {cs : List Char} {m : Match α} (h : firstMatchFrom allowed recognize before index cs = some m) :
    cs ≠ [] := by
  rintro rfl
  simp [firstMatchFrom] at h

theorem of_instanceShape {instanceVar containerVar : String} {found : List Assignment}
    {numbers : List Nat} :
    instanceShape source instanceVar containerVar found numbers = .unrecognized ∨
      ∃ assignments n, n ∈ numbers ∧
        instanceShape source instanceVar containerVar found numbers =
          .instanceAssign instanceVar assignments n := by
  induction numbers generalizing found with
  | nil => exact .inl rfl
  | cons n rest ih =>
    rw [instanceShape]
    split
    · exact .inr ⟨_, n, .head _, rfl⟩
    · rcases @ih (found ++ assignmentsOn instanceVar containerVar (source.line n)) with
        h | ⟨assignments, m, hm, h⟩
      · exact .inl h
      · exact .inr ⟨assignments, m, .tail _ hm, h⟩

/-- The return statement starts on a line of the body and ends on the line of its
parenthesis. -/
theorem FactoryShape.ofBody_newStatic {containerVar : String} {opening closing : Spot}
    {keyword : String} {arguments : List String} {comma : Bool} {returnLine returnEndLine : Nat}
    (h : FactoryShape.ofBody source containerVar opening closing =
      .newStatic keyword arguments comma returnLine returnEndLine) :
    opening.line ≤ returnLine ∧ returnLine ≤ closing.line ∧ returnLine ≤ returnEndLine ∧
      source.raw returnLine ≠ [] ∧ source.raw returnEndLine ≠ [] := by
  simp only [FactoryShape.ofBody] at h
  split at h
  · rename_i n m hfirst
    split at h
    · cases h
    · rename_i close hclose
      obtain ⟨hholds, hbehind⟩ := Source.matchingClose_spec hclose
      obtain ⟨k, hk, hsome⟩ := List.exists_of_findSome?_eq_some hfirst
      obtain ⟨m', hm', heq⟩ := Option.map_eq_some_iff.mp hsome
      cases heq
      injection h with _ _ _ hline hend
      subst hline hend
      obtain ⟨hle, hle'⟩ := Source.mem_span.mp hk
      exact ⟨hle, hle', Source.line_le_of_not_before hbehind,
        Source.raw_ne_nil_of_code (firstMatchFrom_ne_nil hm'), hholds.raw_ne_nil⟩
  · split at h
    · cases h
    · rename_i n m _
      rcases of_instanceShape with hshape | ⟨_, _, _, hshape⟩ <;> rw [hshape] at h <;> cases h

theorem Factory.placed_ofLayout {paramsOpen : Spot} (doc : Option LineSpan)
    (h : MethodLayout.at? source paramsOpen = some layout) (hbrace : brace < paramsOpen.line) :
    (Factory.ofLayout source layout doc).Placed source brace := by
  obtain ⟨rfl, hclose, hopen, hbody, -⟩ := MethodLayout.spec h
  refine ⟨hbrace, Nat.le_trans hclose hopen, hbody, fun span hspan => ?_⟩
  simp only [Factory.returnSpan, Factory.ofLayout, Option.mem_def] at hspan
  split at hspan
  · rename_i hshape
    cases hspan
    exact FactoryShape.ofBody_newStatic hshape
  · cases hspan

/-! ### The class -/

theorem Source.leadingLine_le (source : Source) (n : Nat) : source.leadingLine n ≤ n := by
  induction n using Nat.strongRecOn with
  | ind n ih =>
    unfold leadingLine
    split
    · exact Nat.le_refl 0
    · rename_i before
      split
      · exact Nat.le_refl _
      · rename_i start _
        split
        · rename_i hle
          exact Nat.le_trans (ih start (by omega)) (by omega)
        · exact Nat.le_refl _

/-- Where the parts of a class stand: its head in front of its brace, and its wiring
methods on lines of their own behind it. -/
structure Outline.Placed (source : Source) (outline : Outline) : Prop where
  leading_le : outline.decl.leadingLine ≤ outline.decl.line
  line_le : outline.decl.line ≤ outline.decl.openBraceLine
  constructor : ∀ ctor ∈ outline.constructor, ctor.Placed source outline.decl.openBraceLine
  factory : ∀ factory ∈ outline.factory, factory.Placed source outline.decl.openBraceLine
  static : ∀ factory ∈ outline.factory, ∃ method ∈ outline.methods, method.isStatic = true ∧
    method.span = ⟨factory.startLine, factory.endLine⟩
  apart : ∀ ctor ∈ outline.constructor, ∀ factory ∈ outline.factory,
    ctor.endLine < factory.startLine ∨ factory.endLine < ctor.leadingLine

theorem Outline.placed_ofDeclaration {outline : Outline}
    (h : Outline.ofDeclaration source n = some outline) : outline.Placed source := by
  obtain ⟨entries, hlists⟩ := exists_lists h
  simp only [Outline.ofDeclaration, guard, Option.bind_eq_bind, Option.bind_eq_some_iff] at h
  obtain ⟨head, -, opening, hopening, _, -, close, -, houtline⟩ := h
  have hline : n ≤ opening.spot.line :=
    Source.line_le_of_not_before (Source.firstOf_spec hopening).2.1
  have hdecl : outline.decl.leadingLine ≤ outline.decl.line ∧
      outline.decl.line ≤ outline.decl.openBraceLine := by
    rw [← Option.some.inj houtline]
    exact ⟨Source.leadingLine_le source n, hline⟩
  refine ⟨hdecl.1, hdecl.2, fun ctor hctor => ?_, fun factory hfactory => ?_,
    fun factory hfactory => ?_, fun ctor hctor factory hfactory => ?_⟩
  · obtain ⟨method, layout, hmem, -, hstarts, hspan, rfl⟩ := hlists.of_constructor hctor
    have hstands := hlists.stands _ hmem
    obtain ⟨hlt, hle, hne⟩ := hstands.leading
    have hend := hstands.first_le
    simp only [Recorded.leadingLine, Recorded.span, hspan] at hlt hle hne hend
    exact ⟨hlt, hle, hend, hne, (MethodLayout.spec hstarts.at?).2.2.2.2.2.raw_ne_nil⟩
  · obtain ⟨method, layout, hmem, -, hstarts, hspan, rfl⟩ := hlists.of_factory hfactory
    have hlt := (hlists.stands _ hmem).brace_lt
    simp only [Recorded.span, hspan] at hlt
    exact Factory.placed_ofLayout method.doc hstarts.at? hlt
  · obtain ⟨method, layout, hmem, htest, -, hspan, rfl⟩ := hlists.of_factory hfactory
    exact ⟨method, hlists.mem_methods.mpr hmem, (Bool.and_eq_true_iff.mp htest).2, hspan⟩
  · obtain ⟨method, layout, hmem, hname, -, hspan, rfl⟩ := hlists.of_constructor hctor
    obtain ⟨method', layout', hmem', htest, -, hspan', rfl⟩ := hlists.of_factory hfactory
    have hne : Recorded.method method ≠ .method method' := by
      rintro ⟨⟩
      rw [eq_of_beq (Bool.and_eq_true_iff.mp htest).1] at hname
      exact absurd hname (by decide)
    rcases hlists.before_or_before hmem hmem' hne with hbefore | hbefore
    · have hlt := hbefore.last_lt (hlists.stands _ hmem')
      simp only [Recorded.span, hspan, hspan'] at hlt
      exact .inl hlt
    · simp only [Recorded.Before, Recorded.leadingLine, Recorded.span, hspan, hspan'] at hbefore
      exact .inr hbefore

end ServiceInjection

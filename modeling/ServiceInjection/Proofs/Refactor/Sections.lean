import ServiceInjection.Proofs.Refactor.LineEdits
import ServiceInjection.Proofs.Wiring.ExtendedFactory

/-!
# Refactor.Sections

The class that a refactoring leaves behind, read again. The body of a class is cut into sections:
members that stay as they are, new properties in between, methods whose calls are replaced, the
constructor and the factory. Each section has its own edits, and they turn it into lines that
declare the same members again, but that the constructor and the factory read the lists that
were written for them (`Draft.Section.turns`). By induction this holds of the whole body
(`Draft.Sections.turns`).

With the imports above the class and the properties right behind its brace, that is what the batch
makes of the text, and so the analysis of the new text finds the class with its extended lists
(`Draft.Layout.ofDeclaration_apply`). What is read from these lists is left open here.
-/

namespace ServiceInjection

open Text List Position Batch

variable {subject : Subject} {draft : Draft} {edit : Edit} {before front ls new rest : List (List Char)}
  {back : List Char} {n : Nat}

/-! ### Members behind edits -/

/-- Members of a class behind edits. Where there was a constructor or a factory, there is one again,
and it reads its list as that of the old one extended by the new services. -/
structure Draft.Rewires (draft : Draft) (ctor : Constructor) (factory : Factory) (old new : Members) :
    Prop where
  constructor : Option.Rel (fun _ read => ctor.ReadsMerged draft.bindings read.params)
    old.constructor new.constructor
  factory : Option.Rel (fun _ read => ReadsArguments (factory.arguments ++
    draft.bindings.map (fetchExpression factory.containerVar ·.serviceId)) read.arguments)
    old.factory new.factory

theorem Factory.arguments_moved (factory : Factory) (k : Nat) :
    (factory.moved k).arguments = factory.arguments := by
  simp only [Factory.arguments, Factory.moved]
  cases factory.shape <;> rfl

namespace Draft.Rewires

variable {ctor : Constructor} {factory : Factory} {old new old' new' : Members}

theorem of_none (hctor : old.constructor = none) (hfactory : old.factory = none)
    (hctor' : new.constructor = none) (hfactory' : new.factory = none) :
    draft.Rewires ctor factory old new :=
  ⟨by rw [hctor, hctor']; exact .none, by rw [hfactory, hfactory']; exact .none⟩

theorem append (h : draft.Rewires ctor factory old new) (h' : draft.Rewires ctor factory old' new')
    (j k : Nat) : draft.Rewires ctor factory (old ++ old'.moved j) (new ++ new'.moved k) := by
  have hor : ∀ {α : Type} {r : α → α → Prop} {f g : α → α} {a b a' b' : Option α},
      (∀ x y, r x y → r (f x) (g y)) → Option.Rel r a b → Option.Rel r a' b' →
      Option.Rel r (a.or (a'.map f)) (b.or (b'.map g)) := by
    intro α r f g a b a' b' hmoved hab hab'
    cases hab with
    | some h => exact .some h
    | none =>
      cases hab' with
      | some h => exact .some (hmoved _ _ h)
      | none => exact .none
  exact ⟨hor (fun _ _ h => h) h.constructor h'.constructor, hor (fun _ read h => by
    rwa [Factory.arguments_moved]) h.factory h'.factory⟩

end Draft.Rewires

/-! ### Calls in a method -/

/-- A closed piece of code that what stands in front of it does not run into. -/
structure IsInset (piece : List Char) : Prop where
  ne_nil : piece ≠ []
  inert : Lex.Inert piece.head?
  block : ∀ next, CodeBlock piece next

/-- Edits in code that replace closed pieces of it by others. -/
inductive Exchanges : List Char → List Edit → List Char → List Char → Prop
  | nil (before cs : List Char) : Exchanges before [] cs cs
  | cons {before gap call old new : List Char} {edit : Edit} {edits : List Edit} :
      edit.range = ⟨behind (before ++ gap), behind (before ++ (gap ++ call))⟩ →
      IsInset call → IsInset edit.text.toList → Lex.code.after gap call.head? = .code →
      Exchanges (before ++ (gap ++ call)) edits old new →
      Exchanges before (edit :: edits) (gap ++ (call ++ old)) (gap ++ (edit.text.toList ++ new))

namespace Exchanges

variable {before old new : List Char} {edits : List Edit}

theorem turns (h : Exchanges before edits old new) (hreturn : '\r' ∉ before ++ old) :
    Turns before edits old new := by
  induction h with
  | nil before cs => exact .kept before cs
  | @cons before gap call old new edit edits hrange hcall _ _ _ ih =>
    simp only [mem_append, not_or] at hreturn
    obtain ⟨hbefore, hgap, hreturn, hold⟩ := hreturn
    have hfirst := @Turns.of_edit before gap call [] edit (by simp [hbefore, hgap, hreturn])
      (by simpa using hcall.ne_nil) (by rw [hrange]) (by rw [hrange])
    rw [append_nil, append_nil] at hfirst
    have hturns := hfirst.append (ih (by simp [hbefore, hgap, hreturn, hold]))
    rwa [append_assoc, append_assoc] at hturns

/-- The code stays closed: one piece after the other is exchanged, and the code in front of the next
one grows. -/
theorem codeBlock (h : Exchanges before edits old new) {next : Option Char} {front : List Char}
    (hfront : ∀ next, Lex.code.after front next = .code) (hold : CodeBlock (front ++ old) next) :
    CodeBlock (front ++ new) next := by
  induction h generalizing front with
  | nil => exact hold
  | @cons before gap call old new edit edits _ hcall hnew hgap _ ih =>
    have hbehind : ∀ {piece : List Char}, IsInset piece → ∀ rest next,
        Lex.code.cells (front ++ gap) ((piece ++ rest).head?.or next) =
          Lex.code.cells (front ++ gap) call.head? ∧
        Lex.code.after (front ++ gap) ((piece ++ rest).head?.or next) = .code := by
      intro piece hpiece rest next
      have hafter : Lex.code.after (front ++ gap) call.head? = .code := by
        rw [Lex.after_append, hfront, hgap]
      have hhead : (piece ++ rest).head?.or next = piece.head? := by
        obtain ⟨c, cs, rfl⟩ := exists_cons_of_ne_nil hpiece.ne_nil
        rfl
      obtain ⟨hcells, hsame⟩ := Lex.cells_inert hcall.inert hpiece.inert (.inl hafter)
      rw [hhead]
      exact ⟨hcells, hsame.trans hafter⟩
    have hstep := @CodeBlock.exchange (front ++ gap) call edit.text.toList old next _
      (forall_mem_cons.mpr ⟨hbehind hcall _ _, forall_mem_singleton.mpr (hbehind hnew _ _)⟩) hcall.block
      hnew.block (by simpa using hold)
    have hblock := @ih (front ++ (gap ++ edit.text.toList)) (fun next => ?_) (by simpa using hstep)
    · simpa using hblock
    · have hafter := (hbehind hnew [] next).2
      rw [append_nil] at hafter
      rw [← append_assoc, Lex.after_append, hafter, (hnew.block next).ends]

end Exchanges

/-! ### Sections of a class body -/

/-- What is known of a class whose constructor and factory are extended. -/
structure Draft.Extending (draft : Draft) (subject : Subject) (ctor : Constructor) (factory : Factory) :
    Prop where
  plan : draft.plan = ⟨.merge, .merge⟩
  bindings : draft.bindings ≠ []
  style : subject.style.Writable
  lines : ∀ n, IsLine (subject.source.raw n)
  found : subject.outline.constructor = some ctor ∧ subject.outline.factory = some factory
  params : ∀ param ∈ ctor.params, Listable param.text.toList ∧
    Param.of? param.text.toList (Entry.ofText param.text.toList).masked = some param
  breaks : ∀ param ∈ ctor.params, EndsInComment param.text.toList → ctor.multilineParams = true
  arguments : ∀ argument ∈ factory.arguments, Listable argument.toList
  inscribed : ∀ binding ∈ draft.bindings, binding.Inscribed factory.containerVar

/-- Whether lines from `line` on are the constructor, behind its comment and attributes. -/
structure Draft.Constructs (draft : Draft) (subject : Subject) (ctor : Constructor) (line : Nat)
    (docs : List (List Char)) (method : WrittenMethod) : Prop where
  read : ∃ head, ∃ h : method.Sound head, sameName head.name "__construct" = true ∧
    ctor.moved 0 =
      (Constructor.ofLayout (.written method.lines) h.layout none).moved (line + docs.length)
  leading : ctor.leadingLine = line
  docs : Declares docs {}
  comment : Declares ((Render.mergedDoc subject.style subject.source ctor draft.bindings).map
    String.toList) {}
  body : Render.IsCode ((Render.keptBody subject.style ctor
    (patchedBody ctor (draft.patches subject.outline))).map String.toList)

/-- Whether lines from `line` on are the factory, and the lines `rets` its return statement. -/
structure Draft.Creates (subject : Subject) (factory : Factory) (line : Nat) (method : WrittenMethod)
    (bs rets : List (List Char)) (rest : List Char) : Prop where
  read : ∃ head, ∃ h : method.Sound head, head.isFactory = true ∧ ∃ keyword comma,
    let shape := (Factory.ofLayout (.written method.lines) h.layout none).shape
    shape = .newStatic keyword factory.arguments comma (method.heads bs).length
      ((method.heads bs).length + rets.length - 1) ∧ factory.shape = shape.moved line
  body : method.body = unlines bs ++ (unlines rets ++ rest)
  starts : bs ≠ [] ∧ Lex.code.after (unlines bs) none = .code
  returns : rets ≠ [] ∧ Render.IsCode rets
  tail : CodeBlock ((afterLastSemicolon (subject.source.line
    (line + ((method.heads bs).length + rets.length - 1)))).toList ++ ['\n']) none

/-- A section of the class body behind the lines `before`, with the edits that are made in it. -/
inductive Draft.Section (draft : Draft) (subject : Subject) (ctor : Constructor) (factory : Factory)
    (before : List (List Char)) : List (List Char) → List Edit → Prop
  /-- Other members. -/
  | kept {ls : List (List Char)} : DeclaresOthers ls → Section draft subject ctor factory before ls []
  /-- Other members, with new properties in between. -/
  | fields {front ls : List (List Char)} {edit : Edit} : DeclaresOthers front → DeclaresOthers ls →
      ls ≠ [] → fieldEdit subject draft.bindings = some edit →
      fieldSeam subject draft.bindings = some (before.length + front.length) →
      before.length ≤ edit.range.start.line →
      Section draft subject ctor factory before (front ++ ls) [edit]
  /-- Another method with calls that are replaced. -/
  | calls {method : WrittenMethod} {head : MethodHead} {body : List Char} {edits : List Edit} :
      method.Sound head → sameName head.name "__construct" = false → head.isFactory = false →
      Exchanges (unlines before ++ method.opening) edits method.body body →
      Section draft subject ctor factory before method.lines edits
  | constructor {docs : List (List Char)} {method : WrittenMethod} {edit : Edit} :
      draft.Constructs subject ctor before.length docs method →
      draft.constructorPart subject = some edit →
      Section draft subject ctor factory before (docs ++ method.lines) [edit]
  | factory {method : WrittenMethod} {bs rets : List (List Char)} {rest : List Char} {edit : Edit} :
      Draft.Creates subject factory before.length method bs rets rest →
      mergedFactory subject factory draft.bindings = some edit →
      Section draft subject ctor factory before method.lines [edit]

/-- Whether edits turn lines into lines with the same members, but for the lists of the constructor
and the factory. -/
def Draft.Turns (draft : Draft) (ctor : Constructor) (factory : Factory) (before old : List (List Char))
    (edits : List Edit) : Prop :=
  ∃ new added added', Declares old added ∧ Declares new added' ∧
    Batch.Turns (unlines before) edits (unlines old) (unlines new) ∧
    draft.Rewires ctor factory added added'

namespace Draft.Section

variable {ctor : Constructor} {factory : Factory} {edits : List Edit}

/-- The edits of the constructor. -/
theorem turns_constructor {docs : List (List Char)} {method : WrittenMethod}
    (hknown : draft.Extending subject ctor factory)
    (h : draft.Constructs subject ctor before.length docs method)
    (hedit : draft.constructorPart subject = some edit)
    (hsource : subject.source = .written (before ++ ((docs ++ method.lines) ++ rest)))
    (hlines : ∀ line ∈ before, '\n' ∉ line)
    (hreturn : '\r' ∉ unlines (before ++ (docs ++ method.lines))) :
    draft.Turns ctor factory before (docs ++ method.lines) [edit] := by
  obtain ⟨head, hsound, hname, hread⟩ := h.read
  obtain ⟨added, hdeclares, hnone, hctor⟩ := hsound.declares_constructor hname h.docs
  obtain ⟨hstart, hend⟩ := hsound.signature_ofLayout none
  obtain ⟨new, added', read, htext, hdeclares', hnone', hctor', hmerged⟩ :=
    Render.mergedConstructor_declares hknown.style (fun n => (hknown.lines n).1) hsound hname
      hknown.bindings ((congrArg (·.signatureStart.toList) hread).trans hstart)
      ((congrArg (·.signatureEnd.toList) hread).trans hend) h.comment h.body
      (fun binding hbinding hpromoted =>
        have hwritable := (hknown.inscribed binding hbinding).writable hpromoted
        ⟨hwritable.field, hwritable.param⟩)
      (fun param hparam => (hknown.params param hparam).1) hknown.breaks
      (fun binding hbinding => (hknown.inscribed binding hbinding).declaration)
  refine ⟨new, added, added', hdeclares, hdeclares', ?_, ?_, ?_⟩
  · have hlast : ctor.endLine = before.length + (docs ++ method.lines).length - 1 := by
      have hclose := hsound.endLine_ofLayout
      have hmoved : 0 + ctor.endLine = before.length + docs.length + hsound.layout.bodyClose.line :=
        congrArg (·.endLine) hread
      rw [length_append]
      omega
    rw [Draft.constructorPart, constructorEdit, hknown.plan] at hedit
    dsimp only at hedit
    rw [hknown.found.1] at hedit
    cases hedit
    have hne : docs ++ method.lines ≠ [] := append_ne_nil_of_right_ne_nil _ (pieces_spec _).2.1
    rw [← append_nil (unlines (docs ++ method.lines)), ← htext]
    refine @Subject.turns_lines subject _ before [] _ rest [] hsource hne
      (forall_mem_append.mpr ⟨hlines, hdeclares.lines⟩) hreturn ?_
    show subject.rangeOf ⟨ctor.leadingLine, ctor.endLine⟩ = _
    rw [h.leading, hlast]
    rfl
  · rw [hctor, hctor']
    exact .some hmerged
  · rw [hnone, hnone']
    exact .none

/-- The edit of the factory. -/
theorem turns_factory {method : WrittenMethod} {bs rets : List (List Char)}
    (hknown : draft.Extending subject ctor factory)
    (h : Draft.Creates subject factory before.length method bs rets back)
    (hedit : mergedFactory subject factory draft.bindings = some edit)
    (hsource : subject.source = .written (before ++ (method.lines ++ rest)))
    (hlines : ∀ line ∈ before, '\n' ∉ line) (hreturn : '\r' ∉ unlines (before ++ method.lines)) :
    draft.Turns ctor factory before method.lines [edit] := by
  obtain ⟨head, hsound, hfactory, keyword, comma, hshape', hmoved⟩ := h.read
  have hshape := hmoved.trans (congrArg (FactoryShape.moved before.length) hshape')
  obtain ⟨hbs, hends⟩ := h.starts
  obtain ⟨hrets, hcode⟩ := h.returns
  have hindent : IsIndent (subject.indentOf (before.length + (method.heads bs).length)).toList := by
    have hline := hknown.lines (before.length + (method.heads bs).length)
    rw [Subject.indentOf, String.toList_ofList]
    exact ⟨blank_leadingBlanks _, fun hmem => hline.1 ((List.takeWhile_prefix _).subset hmem),
      fun hmem => hline.2 ((List.takeWhile_prefix _).subset hmem)⟩
  obtain ⟨rets', added', read, htext, hdeclares', hnone', hmade', harguments⟩ :=
    @WrittenMethod.Sound.mergedFactory_declares method head bs rets back hsound hfactory hbs hends h.body
      hcode.block keyword factory.arguments
      (draft.bindings.map (fetchExpression factory.containerVar ·.serviceId)) comma _ hshape'
      hknown.arguments (by simpa using hknown.bindings)
      (by simpa using fun binding hbinding => (hknown.inscribed binding hbinding).argument)
      _ _ hindent hknown.style.unit.1 _ h.tail
  obtain ⟨-, hnone, hmade⟩ := hsound.added_factory (sameName_of_isFactory hfactory) hfactory
  refine ⟨_, _, added', hsound.declares (by rw [(hsound.of_newStatic hshape').2.1, Bool.or_true]),
    hdeclares', ?_, ?_, ?_⟩
  · obtain ⟨hrange, hwritten⟩ : edit.range = subject.rangeOf ⟨before.length + (method.heads bs).length,
        before.length + ((method.heads bs).length + rets.length - 1)⟩ ∧
        unlines rets' = edit.text.toList ++ ['\n'] := by
      rw [mergedFactory, hshape] at hedit
      cases hedit
      exact ⟨rfl, by simp [← htext, Edit.replaceLines]⟩
    have hmethod : method.lines =
        method.heads bs ++ (rets ++ pieces (back ++ '}' :: method.back)) := by
      rw [WrittenMethod.lines_heads hbs h.body, unlines_eq_joined hrets, append_assoc, append_assoc,
        singleton_append, pieces_feed, pieces_joined hcode.lines hrets]
    have hmethod' : unlines ({ method with body := unlines bs ++ (unlines rets' ++ back) } :
        WrittenMethod).lines = unlines (method.heads bs) ++
          (edit.text.toList ++ '\n' :: (back ++ '}' :: (method.back ++ ['\n']))) := by
      rw [WrittenMethod.Sound.unlines_lines, WrittenMethod.unlines_heads hbs]
      simp [WrittenMethod.text, WrittenMethod.opening, hwritten]
    rw [hmethod] at hsource hreturn
    simp only [unlines_append, mem_append, not_or] at hreturn
    have hturns := @Subject.turns_lines subject edit before (method.heads bs) rets
      (pieces (back ++ '}' :: method.back) ++ rest) (back ++ '}' :: (method.back ++ ['\n']))
      (by simpa using hsource) hrets
      (forall_mem_append.mpr ⟨hlines, forall_mem_append.mpr ⟨WrittenMethod.feeds_heads bs, hcode.lines⟩⟩)
      (by simpa using ⟨hreturn.1, hreturn.2.1, hreturn.2.2.1⟩) (by rw [hrange, Nat.add_sub_assoc
        (length_pos_iff.mpr hrets), Nat.add_sub_assoc (length_pos_iff.mpr hrets), Nat.add_assoc])
    rw [hmethod', hmethod]
    simpa [unlines_pieces] using hturns
  · rw [hnone, hnone']
    exact .none
  · rw [hmade, hmade']
    exact .some harguments

end Draft.Section

namespace Draft

variable {ctor : Constructor} {factory : Factory} {edits : List Edit} {old : List (List Char)}

/-- Lines without wiring methods that become other such lines. -/
theorem Turns.of_others (h : DeclaresOthers old) (hnew : DeclaresOthers new)
    (hturns : Batch.Turns (unlines before) edits (unlines old) (unlines new)) :
    draft.Turns ctor factory before old edits := by
  obtain ⟨added, hadded, hctor, hfactory⟩ := h
  obtain ⟨added', hadded', hctor', hfactory'⟩ := hnew
  exact ⟨new, added, added', hadded, hadded', hturns, .of_none hctor hfactory hctor' hfactory'⟩

theorem declaresOthers_method {method : WrittenMethod} {head : MethodHead} (h : method.Sound head)
    (hname : sameName head.name "__construct" = false) (hfactory : head.isFactory = false) :
    DeclaresOthers method.lines := by
  have hkind : (head.name == "create" && head.isStatic) = false := hfactory
  refine ⟨h.added, h.declares (by rw [hfactory]; rfl), ?_, ?_⟩ <;>
    simp [WrittenMethod.Sound.added, MemberScan.addMethod, hname, hkind]

/-- **One section.** The edits of a section turn it into lines with the same members, but for the
lists that are extended. -/
theorem Section.turns (h : draft.Section subject ctor factory before old edits)
    (hknown : draft.Extending subject ctor factory)
    (hsource : subject.source = .written (before ++ (old ++ rest)))
    (hlines : ∀ line ∈ before, '\n' ∉ line) (hreturn : '\r' ∉ unlines (before ++ old)) :
    draft.Turns ctor factory before old edits := by
  cases h with
  | kept h => exact .of_others h h (.kept _ _)
  | @fields front ls edit hfront hls hne hedit hseam hle =>
    obtain ⟨new, hnew, hinserts, -⟩ := fieldEdit_inserts hknown.style
      (fun binding hbinding => (hknown.inscribed binding hbinding).writable) hedit
    rw [hseam, Option.getD_some] at hinserts
    have hfeeds : ∀ line ∈ front, '\n' ∉ line := hfront.elim fun _ h => h.1.lines
    refine .of_others (hfront.append hls) (hfront.append (hnew.append hls)) ?_
    rw [unlines_append, unlines_append, unlines_append]
    rw [append_assoc] at hsource
    rw [← append_assoc, unlines_append, mem_append, not_or] at hreturn
    exact hinserts.turns hsource (forall_mem_append.mpr ⟨hlines, hfeeds⟩) hreturn.1 hle
      (by rw [unlines_eq_joined hne]; simp) nofun (.kept _ _)
  | @calls method head body edits hsound hname hfactory hexchanges =>
    have hsound' : ({ method with body := body } : WrittenMethod).Sound head :=
      { hsound with body := @Exchanges.codeBlock _ _ _ _ hexchanges _ [] (fun _ => rfl) hsound.body }
    refine .of_others (declaresOthers_method hsound hname hfactory)
      (declaresOthers_method hsound' hname hfactory) ?_
    have htext : ∀ body, unlines ({ method with body := body } : WrittenMethod).lines =
        method.opening ++ (body ++ '}' :: (method.back ++ ['\n'])) := fun body => by
      rw [WrittenMethod.Sound.unlines_lines]
      simp [WrittenMethod.text, WrittenMethod.opening]
    rw [unlines_append, show unlines method.lines = _ from htext method.body] at hreturn
    rw [htext body, show unlines method.lines = _ from htext method.body]
    simp only [mem_append, not_or] at hreturn
    have hbody := (hexchanges.turns (by simpa using ⟨hreturn.1, hreturn.2.1, hreturn.2.2.1⟩)).append
      (.kept _ ('}' :: (method.back ++ ['\n'])))
    rw [append_nil] at hbody
    exact (Batch.Turns.kept _ _).append hbody
  | constructor h hedit => exact Section.turns_constructor hknown h hedit hsource hlines hreturn
  | factory h hedit => exact Section.turns_factory hknown h hedit hsource hlines hreturn

/-- A class body in sections. -/
inductive Sections (draft : Draft) (subject : Subject) (ctor : Constructor) (factory : Factory) :
    List (List Char) → List (List Char) → List Edit → Prop
  | nil (before : List (List Char)) : Sections draft subject ctor factory before [] []
  | cons {before ls old : List (List Char)} {edits edits' : List Edit} :
      draft.Section subject ctor factory before ls edits →
      Sections draft subject ctor factory (before ++ ls) old edits' →
      Sections draft subject ctor factory before (ls ++ old) (edits ++ edits')

/-- **All sections.** -/
theorem Sections.turns (h : draft.Sections subject ctor factory before old edits)
    (hknown : draft.Extending subject ctor factory)
    (hsource : subject.source = .written (before ++ (old ++ rest)))
    (hlines : ∀ line ∈ before, '\n' ∉ line) (hreturn : '\r' ∉ unlines (before ++ old)) :
    draft.Turns ctor factory before old edits := by
  induction h with
  | nil before => exact .of_others ⟨{}, .nil, rfl, rfl⟩ ⟨{}, .nil, rfl, rfl⟩ (.kept _ _)
  | @cons before ls old edits edits' hsection _ ih =>
    rw [append_assoc] at hsource
    rw [← append_assoc, unlines_append, mem_append, not_or] at hreturn
    obtain ⟨new, added, added', hadded, hnew, hturns, hrewires⟩ :=
      hsection.turns hknown hsource hlines hreturn.1
    rw [← append_assoc] at hsource
    obtain ⟨news, added₂, added₂', hadded₂, hnew₂, hturns₂, hrewires₂⟩ := ih hsource
      (forall_mem_append.mpr ⟨hlines, hadded.lines⟩) (by
        rw [unlines_append, mem_append, not_or]
        exact hreturn)
    rw [unlines_append] at hturns₂
    refine ⟨new ++ news, _, _, hadded.append hadded₂, hnew.append hnew₂, ?_, hrewires.append hrewires₂ _ _⟩
    rw [unlines_append, unlines_append]
    exact hturns.append hturns₂

end Draft

/-! ### The class -/

/-- The source of a text that starts with some lines. -/
theorem Source.ofText_unlines {text : String} (htext : text.toList = unlines ls ++ back)
    (hlines : ∀ line ∈ ls, '\n' ∉ line) (hreturn : '\r' ∉ text.toList) :
    ofText text = .written (ls ++ Text.lines back) := by
  have hisLine : ∀ line ∈ ls, IsLine line := by
    refine fun line hline => ⟨hlines line hline, fun hmem => hreturn ?_⟩
    rw [htext]
    exact mem_append_left _ (mem_flatMap.mpr ⟨line, hline, mem_append_left _ hmem⟩)
  rw [ofText, htext, lines_unlines_append hisLine]
  rfl

/-- A class in a text, with the sections of its body. Imports go between the lines `above` and
`below`; the edits `brace` add properties right behind the class brace. -/
structure Draft.Layout (draft : Draft) (subject : Subject) (ctor : Constructor) (factory : Factory)
    (names : List String) (text : String) where
  above : List (List Char)
  below : List (List Char)
  header : List (List Char)
  body : List (List Char)
  tail : List Char
  brace : List Edit
  edits : List Edit
  text_eq : text.toList = unlines (above ++ (below ++ (header ++ body))) ++ tail
  lines : ∀ line ∈ above ++ (below ++ (header ++ body)), '\n' ∉ line
  above_code : Lex.code.after (unlines above) none = .code
  below_code : Lex.code.after (unlines below) none = .code
  header_code : Lex.code.after (unlines header) none = .code
  line_eq : subject.outline.decl.line = above.length + below.length
  openBrace : subject.outline.decl.openBraceLine + 1 = above.length + below.length + header.length
  closeBrace : subject.outline.decl.closeBraceLine =
    above.length + below.length + header.length + body.length
  imports : ∀ edit ∈ importEdit subject names, above.length = subject.importLine
  classes : ∀ name ∈ names.filter (!subject.outline.hasImport ·), IsClassName name
  brace_eq : brace = if (fieldSeam subject draft.bindings).isSome then []
    else (fieldEdit subject draft.bindings).toList
  sections : draft.Sections subject ctor factory (above ++ (below ++ header)) body edits

/-- All edits of the class, from its imports on. -/
def Draft.Layout.allEdits {draft : Draft} {subject : Subject} {ctor : Constructor} {factory : Factory}
    {names : List String} {text : String} (layout : draft.Layout subject ctor factory names text) :
    List Edit :=
  (importEdit subject names).toList ++ (layout.brace ++ layout.edits)

/-- Members that were moved still read their lists. -/
theorem Members.lists_of_moved {members read : Members} {k : Nat} (h : members.moved 0 = read.moved k) :
    members.constructor.map (·.params) = read.constructor.map (·.params) ∧
      members.factory.map (·.arguments) = read.factory.map (·.arguments) := by
  have hctor := congrArg (·.constructor.map (·.params)) h
  have hfactory := congrArg (·.factory.map (·.arguments)) h
  simp only [Members.moved, Option.map_map] at hctor hfactory
  simp only [Function.comp_def, Factory.arguments_moved] at hfactory
  exact ⟨hctor, hfactory⟩

/-- What holds of the value behind edits, where values are compared by what is read of them. -/
theorem exists_of_rel {α β : Type} {P : β → Prop} {f : α → β} {a : α} {old new read : Option α}
    (hold : (some a).map f = old.map f) (h : Option.Rel (fun _ x => P (f x)) old new)
    (hread : read.map f = new.map f) : ∃ x, read = some x ∧ P (f x) := by
  cases h with
  | none => cases hold
  | some hnew =>
    obtain ⟨x, rfl, hx⟩ := Option.map_eq_some_iff.mp hread
    exact ⟨x, rfl, hx ▸ hnew⟩

namespace Draft.Layout

variable {ctor : Constructor} {factory : Factory} {names : List String} {text : String}

theorem head_ne_nil (layout : draft.Layout subject ctor factory names text)
    (hle : subject.outline.decl.line ≤ subject.outline.decl.openBraceLine) :
    layout.below ++ layout.header ≠ [] := by
  intro hnil
  have hlength := congrArg length hnil
  have hopen := layout.openBrace
  have hline := layout.line_eq
  rw [length_append, length_nil] at hlength
  omega

section

variable (layout : draft.Layout subject ctor factory names text)
  (hknown : draft.Extending subject ctor factory)
  (hsource : subject.source = .written (layout.above ++ ((layout.below ++ layout.header) ++ rest)))
  (hreturn : '\r' ∉ unlines (layout.above ++ (layout.below ++ layout.header)))
  (hle : subject.outline.decl.line ≤ subject.outline.decl.openBraceLine)
  (hraw : subject.source.raw subject.outline.decl.openBraceLine ≠ [])

include hknown hsource hreturn hle hraw

/-- The edit behind the class brace. -/
theorem turns_brace : ∃ block, DeclaresOthers block ∧
      Batch.Turns (unlines layout.above) layout.brace (unlines (layout.below ++ layout.header))
        (unlines (layout.below ++ layout.header) ++ unlines block) ∧
      ∀ edit ∈ layout.brace, (⟨layout.above.length, 0⟩ : Position) < edit.range.start := by
  have hopen := layout.openBrace
  have hline := layout.line_eq
  have hnone : DeclaresOthers [] := ⟨{}, .nil, rfl, rfl⟩
  rw [layout.brace_eq]
  split
  · exact ⟨[], hnone, by simpa using .kept _ _, nofun⟩
  rename_i hseam
  have hseam : fieldSeam subject draft.bindings = none := by simpa using hseam
  cases hedit : fieldEdit subject draft.bindings with
  | none => exact ⟨[], hnone, by simpa using .kept _ _, nofun⟩
  | some edit =>
    obtain ⟨block, hblock, hinserts, hstart⟩ := fieldEdit_inserts hknown.style
      (fun binding hbinding => (hknown.inscribed binding hbinding).writable) hedit
    rw [hseam, Option.getD_none] at hinserts
    specialize hstart hseam
    generalize hbrace : subject.outline.decl.openBraceLine + 1 = seam at hinserts
    cases hinserts with
    | lineStart hrange _ =>
      rw [hrange] at hstart
      exact absurd (hbrace.trans hstart) (Nat.succ_ne_self _)
    | lineEnd hrange htext =>
      obtain rfl := Nat.succ.inj hbrace
      have hlines := layout.lines
      rw [← append_assoc layout.below, ← append_assoc] at hlines
      refine ⟨block, hblock, Subject.turns_lineEnd hsource (layout.head_ne_nil hle)
        (forall_mem_append.mp hlines).1 hreturn ?_ hrange htext, ?_⟩
      · rw [hopen, length_append]
        omega
      · have hpos := subject.lineEnd_pos hraw
        refine forall_mem_singleton.mpr ?_
        rw [hrange, lt_def]
        dsimp only
        omega

/-- The edits above the class body. -/
theorem turns_front :
    ∃ uses block, (∀ line ∈ uses, IsClosedLine line) ∧ DeclaresOthers block ∧
      Batch.Turns [] ((importEdit subject names).toList ++ layout.brace)
        (unlines (layout.above ++ (layout.below ++ layout.header)))
        (unlines (layout.above ++ (uses ++ ((layout.below ++ layout.header) ++ block)))) := by
  obtain ⟨block, hblock, hturns, hlt⟩ := layout.turns_brace hknown hsource hreturn hle hraw
  cases himport : importEdit subject names with
  | none =>
    refine ⟨[], block, nofun, hblock, ?_⟩
    rw [nil_append, unlines_append layout.above, unlines_append layout.above, unlines_append (_ ++ _)]
    exact (Batch.Turns.kept [] (unlines layout.above)).append hturns
  | some edit =>
    obtain ⟨uses, huses, hinserts⟩ := importEdit_inserts layout.classes himport
    rw [← layout.imports edit himport, ← Nat.zero_add layout.above.length] at hinserts
    rw [unlines_append, mem_append, not_or] at hreturn
    refine ⟨uses, block, huses, hblock, ?_⟩
    rw [unlines_append layout.above, unlines_append layout.above, unlines_append uses,
      unlines_append (_ ++ _)]
    refine @Subject.Inserts.turns subject edit [] layout.above uses _ _ _ _ hinserts hsource
      (forall_mem_append.mp layout.lines).1 hreturn.1 (Nat.zero_le _) ?_ (by simpa using hlt) hturns
    rw [unlines_eq_joined (layout.head_ne_nil hle)]
    simp

end

/-- What the edits make of the text. -/
theorem turns (layout : draft.Layout subject ctor factory names text)
    (hknown : draft.Extending subject ctor factory) (hsource : subject.source = .ofText text)
    (houtline : Outline.ofDeclaration subject.source n = some subject.outline)
    (hreturn : '\r' ∉ text.toList) :
    ∃ uses new added added', (∀ line ∈ uses, IsClosedLine line) ∧ Declares layout.body added ∧
      Declares new added' ∧ draft.Rewires ctor factory added added' ∧
      Batch.Turns [] layout.allEdits text.toList
        (unlines ((layout.above ++ (uses ++ layout.below)) ++ (layout.header ++ new)) ++ layout.tail) := by
  obtain ⟨head, opening, close, -, hfirst, -, -, -, -, -, hopen, -, -⟩ := Outline.of_ofDeclaration houtline
  have hle := (Outline.placed_ofDeclaration houtline).line_le
  have hraw : subject.source.raw subject.outline.decl.openBraceLine ≠ [] := by
    rw [hopen]
    exact (Source.firstOf_spec hfirst).1.raw_ne_nil
  have hwritten := Source.ofText_unlines layout.text_eq layout.lines hreturn
  have htext := layout.text_eq
  have hlines := layout.lines
  rw [← hsource] at hwritten
  rw [htext, mem_append, not_or] at hreturn
  have hsplit : layout.above ++ (layout.below ++ (layout.header ++ layout.body)) =
      (layout.above ++ (layout.below ++ layout.header)) ++ layout.body := by simp
  rw [hsplit] at hlines hreturn htext
  obtain ⟨uses, block, huses, ⟨others, hothers, hnone, hnone'⟩, hfront⟩ := layout.turns_front hknown
    (by simpa using hwritten)
    (fun hmem => hreturn.1 (by rw [unlines_append]; exact mem_append_left _ hmem)) hle hraw
  obtain ⟨new, added, added', hadded, hnew, hbody, hrewires⟩ := layout.sections.turns hknown
    (by simpa using hwritten) (forall_mem_append.mp hlines).1 hreturn.1
  refine ⟨uses, block ++ new, _, _, huses, Declares.nil.append hadded, hothers.append hnew,
    (Rewires.of_none rfl rfl hnone hnone').append hrewires _ _, ?_⟩
  have hturns := (hfront.append hbody).append (.kept _ layout.tail)
  rw [← unlines_append, ← unlines_append, ← htext, append_nil] at hturns
  simpa [allEdits] using hturns

/-- **Re-analysis.** Behind the edits the class is found again, with a constructor and a factory that
read their lists as the old ones extended by the new services. -/
theorem ofDeclaration_apply (layout : draft.Layout subject ctor factory names text)
    (hknown : draft.Extending subject ctor factory) (hsource : subject.source = .ofText text)
    (houtline : Outline.ofDeclaration subject.source n = some subject.outline)
    {emitted : List Edit} (hemitted : ∀ edit, edit ∈ emitted ↔ edit ∈ layout.allEdits)
    (hreturn : '\r' ∉ text.toList) (hreturn' : '\r' ∉ ((assemble emitted).apply text).toList) :
    ∃ m outline, Outline.ofDeclaration (.ofText ((assemble emitted).apply text)) m = some outline ∧
      outline.decl.name = subject.outline.decl.name ∧
      (∃ read, outline.constructor = some read ∧ ctor.ReadsMerged draft.bindings read.params) ∧
      ∃ made, outline.factory = some made ∧ ReadsArguments (factory.arguments ++
        draft.bindings.map (fetchExpression factory.containerVar ·.serviceId)) made.arguments := by
  obtain ⟨uses, new, added, added', huses, hadded, hnew, hrewires, hturns⟩ :=
    layout.turns hknown hsource houtline hreturn
  have happly := hturns.apply_assemble hemitted
  obtain ⟨habove, hbelow, hheader, -⟩ : _ ∧ _ ∧ _ ∧ _ := by
    simpa only [forall_mem_append] using layout.lines
  have huseLines : ∀ line ∈ uses, '\n' ∉ line := fun line hline => (huses line hline).1
  have hfrontLines := forall_mem_append.mpr ⟨habove, hbelow⟩
  have hfrontLines' := forall_mem_append.mpr ⟨habove, forall_mem_append.mpr ⟨huseLines, hbelow⟩⟩
  have hcode : ∀ {ls ls' : List (List Char)}, Lex.code.after (unlines ls) none = .code →
      Lex.code.after (unlines ls') none = .code → Lex.code.after (unlines (ls ++ ls')) none = .code := by
    intro ls ls' h h'
    rw [unlines_append, Lex.after_append, (Lex.cells_unlines _ ls _).2, h, h']
  have hfrontCode := hcode layout.above_code layout.below_code
  have hfrontCode' := hcode layout.above_code (hcode
    (after_closedLines huses) layout.below_code)
  have hopen := layout.openBrace
  have hclose := layout.closeBrace
  rw [← length_append] at hopen hclose
  have hfound : Outline.ofDeclaration (.written ((layout.above ++ layout.below) ++ (layout.header ++
      (layout.body ++ Text.lines layout.tail)))) (layout.above ++ layout.below).length =
        some subject.outline := by
    obtain ⟨-, -, -, -, -, -, -, -, -, rfl, -⟩ := Outline.of_ofDeclaration houtline
    rw [length_append, ← layout.line_eq, ← houtline, hsource,
      Source.ofText_unlines layout.text_eq layout.lines hreturn]
    simp
  obtain ⟨outline, houtline, hmembers, -⟩ := Outline.ofDeclaration_declares hfound hopen hclose
    hfrontLines hfrontCode hfrontLines hfrontCode hheader layout.header_code hadded hadded
  cases hfound.symm.trans houtline
  obtain ⟨outline, houtline, hmembers', -, hname, -⟩ := Outline.ofDeclaration_declares hfound hopen
    hclose hfrontLines hfrontCode hfrontLines' hfrontCode' hheader layout.header_code hadded hnew
  obtain ⟨hctor, hfactory⟩ := Members.lists_of_moved hmembers
  obtain ⟨hctor', hfactory'⟩ := Members.lists_of_moved hmembers'
  refine ⟨(layout.above ++ (uses ++ layout.below)).length, outline, ?_, hname,
    exists_of_rel (hknown.found.1 ▸ hctor) hrewires.constructor hctor',
    exists_of_rel (hknown.found.2 ▸ hfactory) hrewires.factory hfactory'⟩
  rw [Source.ofText_unlines ((congrArg String.toList happly).trans String.toList_ofList)
    (forall_mem_append.mpr ⟨hfrontLines', forall_mem_append.mpr ⟨hheader, hnew.lines⟩⟩) hreturn']
  simpa using houtline

end Draft.Layout

end ServiceInjection

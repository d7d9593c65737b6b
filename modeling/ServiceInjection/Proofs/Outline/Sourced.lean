import ServiceInjection.Proofs.Outline.Body
import ServiceInjection.Proofs.Outline.MethodText

/-!
# Outline.Sourced

Where the wiring methods of a class come from. The constructor and the factory are read from
the layout of a method and the doc comment in front of it (`Outline.sourced`), so a method of
an outline can be traced back to its text: `MethodLayout.Starts.exists_text` cuts the source at
the brackets of the method.
-/

namespace ServiceInjection

open Text List

variable {source : Source}

/-! ### Methods of a source -/

theorem Source.Holds.raw {spot : Spot} {c : Char} (h : source.Holds spot c) (hc : c ≠ ' ') :
    (source.raw spot.line)[spot.col]? = some c := by
  rw [Source.raw, Line.raw, getElem?_map, h.cell hc]
  rfl

/-- The cells from the place of a code character on start with that character. -/
theorem Source.Holds.rest {spot : Spot} {c : Char} (h : source.Holds spot c) (hc : c ≠ ' ') :
    source.Valid spot ∧ ∃ rest, source.rest spot = .show c :: rest := by
  have hcell := h.cell hc
  obtain ⟨cells, hline, hget⟩ : ∃ cells, source.lines[spot.line]? = some cells ∧
      cells[spot.col]? = some (.show c) := by
    rw [Source.line, List.getD_eq_getElem?_getD] at hcell
    cases hline : source.lines[spot.line]? with
    | none => simp [hline] at hcell
    | some cells => exact ⟨cells, rfl, by simpa [hline] using hcell⟩
  obtain ⟨hlt, hlineEq⟩ := List.getElem?_eq_some_iff.mp hline
  obtain ⟨hcol, hcellEq⟩ := List.getElem?_eq_some_iff.mp hget
  refine ⟨⟨cells, hline, Nat.le_of_lt hcol⟩, ?_⟩
  obtain ⟨others, hstream⟩ : ∃ others,
      streamOf (cells :: source.lines.drop (spot.line + 1)) = cells ++ others := by
    cases source.lines.drop (spot.line + 1) with
    | nil => exact ⟨[], (List.append_nil cells).symm⟩
    | cons next more => exact ⟨_, rfl⟩
  refine ⟨cells.drop (spot.col + 1) ++ others, ?_⟩
  rw [Source.rest, List.drop_eq_getElem_cons hlt, hlineEq, hstream,
    List.drop_append_of_le_length (Nat.le_of_lt hcol), List.drop_eq_getElem_cons hcol, hcellEq,
    List.cons_append]

namespace MethodLayout

variable {source : Source} {layout : MethodLayout}

theorem Starts.paramsOpen (h : layout.Starts source) : source.Holds layout.paramsOpen '(' := by
  obtain ⟨n, head, hhead, hlayout⟩ := h
  obtain ⟨front, behind, hcode, hparen⟩ := MethodHead.exists_paren hhead
  rw [(MethodLayout.spec hlayout).1]
  show (source.code n)[head.paren]? = some '('
  rw [hcode, hparen, getElem?_append_right (Nat.le_refl _), Nat.sub_self]
  rfl

theorem Starts.paramsClose (h : layout.Starts source) :
    source.matchingClose layout.paramsOpen '(' ')' = some layout.paramsClose := by
  have hlayout := h.at?
  simp only [MethodLayout.at?, Option.bind_eq_bind, Option.bind_eq_some_iff] at hlayout
  obtain ⟨close, hclose, glyph, -, _, -, bodyClose, -, hsome⟩ := hlayout
  rw [hclose, ← Option.some.inj hsome]

/-- A method of a source, cut at its brackets. -/
theorem Starts.exists_text (h : layout.Starts source) :
    source.Valid layout.paramsOpen ∧ ∃ method : MethodText,
      source.rest layout.paramsOpen = method.cells ∧
        layout = method.layout source layout.paramsOpen := by
  obtain ⟨hvalid, rest, hrest⟩ := h.paramsOpen.rest (by decide)
  exact ⟨hvalid, (at?_eq_some_iff hvalid hrest).mp h.at?⟩

end MethodLayout

/-! ### Wiring methods -/

/-- Whether a constructor is read from the method with the given layout and the doc comment
in front of it. -/
structure Constructor.ReadFrom (source : Source) (layout : MethodLayout) (ctor : Constructor) :
    Prop where
  starts : layout.Starts source
  eq : ctor = Constructor.ofLayout source layout ctor.doc
  doc : ∀ span ∈ ctor.doc, span.Documents source layout.paramsOpen.line

/-- Whether a factory is read from the method with the given layout and the doc comment in
front of it. -/
structure Factory.ReadFrom (source : Source) (layout : MethodLayout) (factory : Factory) :
    Prop where
  starts : layout.Starts source
  eq : factory = Factory.ofLayout source layout factory.doc
  doc : ∀ span ∈ factory.doc, span.Documents source layout.paramsOpen.line

/-- Where a constructor stands that is read from a method. -/
theorem Constructor.ReadFrom.lines {source : Source} {layout : MethodLayout} {ctor : Constructor}
    (h : ctor.ReadFrom source layout) :
    ctor.startLine = layout.paramsOpen.line ∧ ctor.openBraceLine = layout.bodyOpen.line ∧
      ctor.endLine = layout.bodyClose.line ∧
      ctor.body = bodyLines source layout.bodyOpen layout.bodyClose := by
  rw [h.eq]
  exact ⟨rfl, rfl, rfl, rfl⟩

/-- The wiring methods of a class are methods of its source. -/
theorem Outline.sourced {n : Nat} {outline : Outline}
    (h : Outline.ofDeclaration source n = some outline) :
    (∀ ctor ∈ outline.constructor, ∃ layout, ctor.ReadFrom source layout) ∧
      ∀ factory ∈ outline.factory, ∃ layout, factory.ReadFrom source layout := by
  obtain ⟨entries, hlists⟩ := exists_lists h
  constructor
  · intro ctor hctor
    obtain ⟨method, layout, hmem, -, hstarts, hspan, rfl⟩ := hlists.of_constructor hctor
    refine ⟨layout, hstarts, rfl, fun span hdoc => ?_⟩
    simpa only [Recorded.span, hspan] using ((hlists.stands _ hmem).doc span hdoc).2
  · intro factory hfactory
    obtain ⟨method, layout, hmem, -, hstarts, hspan, rfl⟩ := hlists.of_factory hfactory
    refine ⟨layout, hstarts, rfl, fun span hdoc => ?_⟩
    simpa only [Recorded.span, hspan] using ((hlists.stands _ hmem).doc span hdoc).2

/-! ### Return statements -/

theorem returnNew_eq_some {cs rest : List Char} {keyword : String}
    (h : returnNew cs = some (keyword, rest)) : ∃ read, cs = read ++ '(' :: rest := by
  simp only [returnNew, Option.bind_eq_bind, Option.bind_eq_some_iff] at h
  obtain ⟨cs₁, hreturn, cs₂, hblanks, cs₃, hnew, cs₄, hblanks', ⟨word, cs₅⟩, hword, cs₆, hparen, h⟩ := h
  obtain ⟨-, rfl⟩ := Prod.mk.inj (Option.some.inj h)
  have hopen : '(' :: cs₆ = blanks cs₅ := (literal_eq_some.mp hparen).symm
  have hkeyword : cs₃ <:+ cs₂ := ⟨_, (literal_eq_some.mp hnew).symm⟩
  have hfirst : cs₁ <:+ cs := ⟨_, (literal_eq_some.mp hreturn).symm⟩
  have hsuffix : '(' :: cs₆ <:+ cs := by
    rw [hopen]
    exact (dropWhile_suffix _).trans <| (oneOf_suffix hword).trans <|
      (someBlanks_suffix hblanks').trans <| hkeyword.trans <| (someBlanks_suffix hblanks).trans hfirst
  obtain ⟨read, hread⟩ := hsuffix
  exact ⟨read, hread.symm⟩

/-- A return statement is read up to the parenthesis that opens its arguments. -/
theorem firstLine_returnNew {numbers : List Nat} {n : Nat} {m : Match String}
    (h : firstLine numbers (fun n => firstWordMatch returnNew (source.code n)) = some (n, m)) :
    ∃ k, m.stop = k + 1 ∧ source.Holds ⟨n, k⟩ '(' := by
  obtain ⟨n', -, hsome⟩ := exists_of_findSome?_eq_some h
  obtain ⟨m', hm', heq⟩ := Option.map_eq_some_iff.mp hsome
  obtain ⟨rfl, rfl⟩ := Prod.mk.inj heq
  obtain ⟨front, text, rest, hcode, hhit, hstop⟩ := of_firstMatchFrom hm'
  obtain ⟨read, rfl⟩ := returnNew_eq_some hhit
  refine ⟨(front ++ read).length, ?_, ?_⟩
  · simp only [length_append, length_cons] at hstop ⊢
    omega
  · show (source.code n')[(front ++ read).length]? = some '('
    rw [hcode, ← append_assoc, getElem?_append_right (Nat.le_refl _), Nat.sub_self]
    rfl

end ServiceInjection

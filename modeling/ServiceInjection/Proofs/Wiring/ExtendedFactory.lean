import ServiceInjection.Proofs.Wiring.ExtendedConstructor
import ServiceInjection.Proofs.Wiring.FreshFactory

/-!
# Wiring.ExtendedFactory

Factories that are extended. Only the lines of the return statement change: what stands in front of
them and behind them stays, so the new lines have to be code that can take the place of the old
(`CodeBlock.exchange`). No line in front of the old statement returns a new object, and hence the
new one is found where the old one was. The main statement is that the factory is a factory again
whose arguments are those of the new list (`WrittenMethod.Sound.mergedFactory_declares`).
-/

namespace ServiceInjection

open Text List

/-! ### Exchanged code -/

/-- A nested piece of code can be exchanged for another one. -/
theorem Text.nestedIn_exchange {opening closing : Char} {x y : List Char}
    (hx : NestedIn opening closing 0 x = true) (hy : NestedIn opening closing 0 y = true)
    (depth : Nat) (a b : List Char) :
    NestedIn opening closing depth (a ++ (x ++ b)) = NestedIn opening closing depth (a ++ (y ++ b)) := by
  induction a generalizing depth with
  | nil =>
    have hleft := nestedIn_append_eq hx depth b
    have hright := nestedIn_append_eq hy depth b
    rw [Nat.zero_add] at hleft hright
    exact hleft.trans hright.symm
  | cons c a ih => simp only [cons_append, NestedIn, ih]

/-- A closed piece of code can be exchanged for another one, if the code in front of it is read in
the same way. -/
theorem CodeBlock.exchange {a x y b : List Char} {next : Option Char} {cells : Line}
    (ha : ∀ z ∈ [x, y], Lex.code.cells a ((z ++ b).head?.or next) = cells ∧
      Lex.code.after a ((z ++ b).head?.or next) = .code)
    (hx : ∀ next, CodeBlock x next) (hy : ∀ next, CodeBlock y next)
    (h : CodeBlock (a ++ (x ++ b)) next) : CodeBlock (a ++ (y ++ b)) next := by
  have hread : ∀ z ∈ [x, y], (∀ next, CodeBlock z next) →
      Lex.code.after (a ++ (z ++ b)) next = Lex.code.after b next ∧
      Lex.code.cells (a ++ (z ++ b)) next =
        cells ++ (Lex.code.cells z (b.head?.or next) ++ Lex.code.cells b next) := by
    intro z hz hblock
    rw [Lex.after_append, Lex.cells_append, (ha z hz).1, (ha z hz).2, Lex.after_append,
      Lex.cells_append, (hblock _).ends]
    exact ⟨rfl, rfl⟩
  obtain ⟨hafter, hcells⟩ := hread x (by simp) hx
  obtain ⟨hafter', hcells'⟩ := hread y (by simp) hy
  refine ⟨hafter'.trans (hafter.symm.trans h.ends), ?_⟩
  have hnested := h.nested
  rw [hcells, Line.code_append, Line.code_append, nestedIn_exchange (hx _).nested (hy _).nested] at hnested
  rwa [hcells', Line.code_append, Line.code_append]

/-! ### Extended factories -/

namespace Render

/-- An extended return statement has its arguments on lines of their own. -/
theorem exists_returnNew {indent unit : String} (keyword : String) {arguments : List String}
    (hne : arguments ≠ []) (comma : Bool) (hindent : Blank indent.toList) (hunit : Blank unit.toList) :
    ∃ gap list, LaysOut gap (arguments.map String.toList) ('\n' :: list) ∧ '\n' ∈ gap ∧
      (returnNew indent unit keyword arguments comma).toList =
        (indent.toList ++ returnText keyword) ++ '\n' :: (list ++ ')' :: [';']) := by
  have hblank : Blank (indent ++ unit).toList := by
    rw [String.toList_append]
    exact hindent.append hunit
  refine ⟨_, _, laysOut_listLines hne comma hblank hindent, mem_cons_self, ?_⟩
  rw [returnNew, if_neg (by simpa using hne), toList_listBlock hne comma
    (String.toList_append ..) (show ");".toList = ')' :: [';'] by decide)]
  simp [returnText]

end Render

/-- A return statement is code on lines of its own. -/
theorem codeBlock_return {keyword : String} {indent list tail : List Char}
    (hkeyword : IsClassWord keyword) (hindent : Blank indent)
    (hafter : Lex.code.after ('\n' :: list) (some ')') = .code)
    (hnested : NestedIn '{' '}' 0 (Lex.code.cells ('\n' :: list) (some ')')).code = true)
    (htail : CodeBlock (tail ++ ['\n']) none) :
    CodeBlock ((indent ++ returnText keyword) ++ (('\n' :: list) ++ ')' :: ';' :: (tail ++ ['\n'])))
      none := by
  refine .append (.of_passes (.plain (forall_mem_append.mpr ⟨fun c hc => ?_, fun c hc => ?_⟩)))
    (.append ⟨hafter, hnested⟩ (.cons (by decide) (by decide) (by decide)
      (.cons (by decide) (by decide) (by decide) htail)))
  · refine ⟨hindent.isPlain c hc, ?_, ?_⟩ <;> rintro rfl <;> exact hindent.not_mem (by decide) hc
  · exact ⟨(plain_returnText hkeyword c hc).1, (plain_returnText hkeyword c hc).2.2⟩

theorem Text.unlines_pieces (text : List Char) : unlines (pieces text) = text ++ ['\n'] := by
  rw [unlines_eq_joined (pieces_spec text).2.1, (pieces_spec text).1]

/-- A factory is no constructor. -/
theorem sameName_of_isFactory {head : MethodHead} (h : head.isFactory = true) :
    sameName head.name "__construct" = false := by
  obtain ⟨hcreate, -⟩ := (Bool.and_eq_true ..).mp h
  rw [beq_iff_eq.mp hcreate]
  decide

namespace WrittenMethod

variable {method : WrittenMethod} {head : MethodHead} {bs rets : List (List Char)} {rest : List Char}

/-- The lines of a method in front of a statement. -/
def heads (method : WrittenMethod) (bs : List (List Char)) : List (List Char) :=
  pieces (method.opening ++ joined bs)

theorem feeds_heads (bs : List (List Char)) : ∀ line ∈ method.heads bs, '\n' ∉ line :=
  (pieces_spec _).2.2

theorem unlines_heads (hbs : bs ≠ []) : unlines (method.heads bs) = method.opening ++ unlines bs := by
  rw [heads, unlines_pieces, unlines_eq_joined hbs, append_assoc]

theorem lines_heads (hbs : bs ≠ []) (hbody : method.body = unlines bs ++ rest) :
    method.lines = method.heads bs ++ pieces (rest ++ '}' :: method.back) := by
  have htext : method.text = (method.opening ++ joined bs) ++ '\n' :: (rest ++ '}' :: method.back) := by
    simp [text, opening, hbody, unlines_eq_joined hbs]
  rw [lines, htext, pieces_feed, heads]

theorem Sound.after_heads (h : method.Sound head) (hbs : bs ≠ [])
    (hends : Lex.code.after (unlines bs) none = .code) :
    Lex.code.after (unlines (method.heads bs)) none = .code := by
  have hopening : method.opening ++ unlines bs = method.front ++ '(' :: (method.params ++
      ')' :: (method.signature ++ '{' :: unlines bs)) := by
    simp [opening]
  have hcons : ∀ c, c = '(' ∨ c = ')' ∨ c = '{' → ∀ cs next, Lex.code.after (c :: cs) next =
      Lex.code.after cs next := by
    rintro c (rfl | rfl | rfl) cs next <;> rfl
  rw [unlines_heads hbs, hopening, Lex.after_append, head?_cons, Option.some_or, h.starts.ends,
    hcons _ (by decide), Lex.after_append, head?_cons, Option.some_or, h.params.ends,
    hcons _ (by decide), Lex.after_append, head?_cons, Option.some_or, h.signature.after,
    hcons _ (by decide), hends]

namespace Sound

/-- What a factory returns, if it returns a new object. -/
theorem of_newStatic {keyword : String} {arguments : List String} {comma : Bool} {first last : Nat}
    (h : method.Sound head) (hshape : (Factory.ofLayout (.written method.lines) h.layout none).shape =
      .newStatic keyword arguments comma first last) :
    IsClassWord keyword ∧ h.layout.returnsClosed (.written method.lines) = true ∧
      ∀ n, h.layout.bodyOpen.line ≤ n → n < first →
        firstWordMatch returnNew ((Source.written method.lines).code n) = none := by
  have hshape : FactoryShape.ofBody _ _ h.layout.bodyOpen h.layout.bodyClose = _ := hshape
  rw [FactoryShape.ofBody] at hshape
  dsimp only at hshape
  split at hshape
  · rename_i n m hfirst
    split at hshape
    · cases hshape
    · rename_i hclose
      cases hshape
      obtain ⟨-, -, hfound, hnone⟩ := firstLine_span_iff.mp hfirst
      obtain ⟨front, text, rest, -, hread, -⟩ := of_firstMatchFrom hfound
      refine ⟨isClassWord_of_returnNew hread, ?_, hnone⟩
      rw [MethodLayout.returnsClosed, hfirst]
      exact Option.isSome_iff_exists.mpr ⟨_, hclose⟩
  · split at hshape
    · cases hshape
    · rcases of_instanceShape with hassigns | ⟨_, _, _, hassigns⟩ <;> rw [hassigns] at hshape <;>
        cases hshape

theorem bodyOpen_le_heads (h : method.Sound head) (bs : List (List Char)) :
    h.layout.bodyOpen.line ≤ (method.heads bs).length := by
  have hopen := h.bodyOpen_line
  have hcount := count_joined (pieces_spec method.opening).2.2 (pieces_spec method.opening).2.1
  have hcount' := count_joined (pieces_spec (method.opening ++ joined bs)).2.2
    (pieces_spec (method.opening ++ joined bs)).2.1
  rw [(pieces_spec _).1] at hcount hcount'
  rw [count_append] at hcount'
  rw [heads]
  omega

/-- **Extended factories are read.** The lines of a return statement can be exchanged for those
of another one with `tail` behind it. The factory is a factory again, and its arguments are read
from the list that was written. -/
theorem mergedFactory_declares (h : method.Sound head) (hfactory : head.isFactory = true)
    (hbs : bs ≠ []) (hends : Lex.code.after (unlines bs) none = .code)
    (hbody : method.body = unlines bs ++ (unlines rets ++ rest)) (hrets : CodeBlock (unlines rets) none)
    {keyword : String} {arguments new : List String} {comma : Bool} {last : Nat}
    (hshape : (Factory.ofLayout (.written method.lines) h.layout none).shape =
      .newStatic keyword arguments comma (method.heads bs).length last)
    (hold : ∀ argument ∈ arguments, Listable argument.toList) (hne : new ≠ [])
    (hnew : ∀ argument ∈ new, Listable argument.toList ∧ ¬ EndsInComment argument.toList)
    {indent unit : String} (hindent : IsIndent indent.toList) (hunit : Blank unit.toList)
    {tail : List Char} (htail : CodeBlock (tail ++ ['\n']) none) :
    ∃ rets' added factory, (Render.returnNew indent unit keyword (arguments ++ new) comma).toList ++
        (tail ++ ['\n']) = unlines rets' ∧
      Declares ({ method with body := unlines bs ++ (unlines rets' ++ rest) } : WrittenMethod).lines added ∧
      added.constructor = none ∧ added.factory = some factory ∧
      ReadsArguments (arguments ++ new) factory.arguments := by
  obtain ⟨hkeyword, -, hnone⟩ := h.of_newStatic hshape
  obtain ⟨gap, list, hlays, hbreak, hwritten⟩ := @Render.exists_returnNew indent unit keyword _
    (show arguments ++ new ≠ [] by simp [hne]) comma hindent.1 hunit
  obtain ⟨⟨hafter, hnested⟩, -⟩ := (map_append (f := String.toList) ▸ hlays).reads
    (by simpa using hold) (fun _ _ _ => hbreak) (by simpa using hne) (by simpa using hnew)
  -- The new statement is code on lines of its own, and so it can take the place of the old one.
  have hunlines := unlines_pieces ((indent.toList ++ returnText keyword) ++
    '\n' :: (list ++ ')' :: ';' :: tail))
  have hblock := codeBlock_return hkeyword hindent.1 hafter hnested.2.2 htail
  generalize pieces ((indent.toList ++ returnText keyword) ++ '\n' :: (list ++ ')' :: ';' :: tail)) =
    rets' at hunlines
  let method' : WrittenMethod := { method with body := unlines bs ++ (unlines rets' ++ rest) }
  have hrets' : CodeBlock (unlines rets') none := by
    rw [hunlines]
    simpa using hblock
  have hsound : method'.Sound head :=
    { h with
      body := @CodeBlock.exchange (unlines bs) (unlines rets) _ rest _ _ (fun _ _ =>
        ⟨(Lex.cells_unlines _ bs _).1, (Lex.cells_unlines _ bs _).2.trans hends⟩) hrets.unlines_next
        hrets'.unlines_next (hbody ▸ h.body) }
  have hreturn : '\n' ∉ indent.toList ++ returnText keyword := fun hmem =>
    (mem_append.mp hmem).elim hindent.2.1 fun hmem => (plain_returnText hkeyword _ hmem).2.1 rfl
  obtain ⟨hjoined, hmore, -⟩ := pieces_spec (list ++ ')' :: ';' :: (tail ++
      '\n' :: (rest ++ '}' :: method.back)))
  have hlines : method'.lines = method.heads bs ++ (indent.toList ++ returnText keyword) ::
      pieces (list ++ ')' :: ';' :: (tail ++ '\n' :: (rest ++ '}' :: method.back))) := by
    rw [lines_heads hbs (show method'.body = _ from rfl), ← pieces_append hreturn, hunlines]
    simp [method', heads, opening]
  have hcode := h.after_heads hbs hends
  have hopen : hsound.layout.bodyOpen.line = h.layout.bodyOpen.line :=
    Nat.succ.inj (hsound.bodyOpen_line.trans h.bodyOpen_line.symm)
  obtain ⟨hclosed, trailing, last', hshape'⟩ := hsound.shape_ofLayout hkeyword
    hlines hcode hindent.1 hmore (congrArg _ hjoined) hafter hnested.1 (hsound.bodyOpen_le_heads bs) (by
      intro n hn hlt
      have hold := hnone n (hopen ▸ hn) hlt
      rwa [lines_heads hbs hbody, (Source.lines_written_behind (feeds_heads bs) hcode _).2 n hlt] at hold)
  obtain ⟨-, hctor, hmade⟩ := hsound.added_factory (sameName_of_isFactory hfactory) hfactory
  refine ⟨rets', _, _, ?_, hsound.declares (by rw [hclosed, Bool.or_true]), hctor, hmade, gap, _, hlays,
    hbreak, ?_⟩
  · rw [hwritten, hunlines]
    simp
  · rw [Factory.arguments, hshape']

end Sound

end WrittenMethod

end ServiceInjection

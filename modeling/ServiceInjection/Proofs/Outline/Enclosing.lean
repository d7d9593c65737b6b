import Mathlib.Data.List.TakeWhile
import ServiceInjection.Proofs.Outline.Body

/-!
# Outline.Enclosing

The innermost class around a line, counted in two directions. The walk backwards from the end of
a line counts the closing braces that it meets and lets each cancel one brace further up; the
search for a closing brace counts the open ones from a brace on. A brace is left over by the
first count exactly if the second does not come back to zero within the line
(`closeIn_isSome_iff`), so the walk finds the last class brace that is still open
(`enclosingDeclaration_eq_innermost`), for nested and for unbalanced braces.
-/

namespace ServiceInjection.Source

open List

variable {source : Source} {n : Nat}

/-! ### Open braces -/

/-- Whether the brace at a place is open at the end of line `n`: it stands on that line or above,
and is closed below the line, if at all. -/
structure OpenAt (source : Source) (n : Nat) (spot : Spot) : Prop where
  brace : source.Holds spot '{'
  line_le : spot.line ≤ n
  lt_close : ∀ close ∈ source.matchingClose spot '{' '}', n < close.line

/-- Whether the body of a class that starts at a place is open at the end of line `n`. -/
structure ClassOpenAt (source : Source) (n : Nat) (spot : Spot) : Prop
    extends OpenAt source n spot where
  head : (source.headOfBrace spot).isSome

/-- Whether a place is the last one in the text where a class starts that is open at the end of
line `n`. -/
structure Innermost (source : Source) (n : Nat) (spot : Spot) : Prop
    extends ClassOpenAt source n spot where
  last : ∀ other, source.ClassOpenAt n other → spot.before other = false

/-! ### Counting in both directions -/

/-- The number of closing braces, counted from the end, that no brace in front of them cancels. -/
def unopened : List Glyph → Nat
  | [] => 0
  | glyph :: rest =>
    if glyph.char == '}' then unopened rest + 1
    else if glyph.char == '{' then unopened rest - 1
    else unopened rest

/-- Braces opened in front of code characters, `depth` of them, are closed there exactly if as
many closing braces are left over. -/
theorem closeIn_isSome_iff {depth : Nat} (hdepth : 0 < depth) (glyphs : List Glyph) :
    (closeIn '{' '}' depth glyphs).isSome ↔ depth ≤ unopened glyphs := by
  induction glyphs generalizing depth with
  | nil => simp [closeIn, unopened]; omega
  | cons glyph rest ih =>
    rw [closeIn, unopened]
    by_cases hopening : glyph.char = '{'
    · have := @ih (depth + 1) (by omega)
      simp only [hopening, beq_self_eq_true, if_true, show ('{' == '}') = false from rfl]
      rw [show (depth : Int) + 1 = (depth + 1 : Nat) by omega, this]
      simp only [Bool.false_eq_true, if_false]
      omega
    · by_cases hclosing : glyph.char = '}'
      · simp only [hclosing, beq_self_eq_true, if_true, show ('}' == '{') = false from rfl,
          Bool.false_eq_true, if_false]
        by_cases hone : depth = 1
        · simp [hone]
        · have := @ih (depth - 1) (by omega)
          rw [if_neg (by rw [beq_iff_eq]; omega),
            show (depth : Int) - 1 = (depth - 1 : Nat) by omega, this]
          omega
      · simpa [hopening, hclosing] using ih hdepth

/-! ### The lines up to the cursor -/

theorem line_of_mem_takeWhile {glyph : Glyph}
    (h : glyph ∈ source.glyphs.takeWhile (·.spot.line ≤ n)) : glyph.spot.line ≤ n := by
  simpa using mem_takeWhile_imp h

theorem line_of_mem_dropWhile {glyph : Glyph}
    (h : glyph ∈ source.glyphs.dropWhile (·.spot.line ≤ n)) : n < glyph.spot.line := by
  have hsorted := source.pairwise_glyphs.sublist (dropWhile_sublist (·.spot.line ≤ n))
  have hnot := head?_dropWhile_not (·.spot.line ≤ n) source.glyphs
  cases hbehind : source.glyphs.dropWhile (·.spot.line ≤ n) with
  | nil => simp [hbehind] at h
  | cons first rest =>
    rw [hbehind] at h hsorted hnot
    have hfirst : n < first.spot.line := by simpa using hnot
    rcases mem_cons.mp h with rfl | h
    · exact hfirst
    · have := (pairwise_cons.mp hsorted).1 glyph h
      rw [Spot.before_def] at this
      omega

/-- A brace is open at the end of a line exactly if no closing brace between the two is left
over. -/
theorem openAt_iff {front behind : List Glyph} {glyph : Glyph}
    (hsplit : source.glyphs.takeWhile (·.spot.line ≤ n) = front ++ glyph :: behind) :
    source.OpenAt n glyph.spot ↔ glyph.char = '{' ∧ unopened behind = 0 := by
  have hglyphs : source.glyphs =
      front ++ glyph :: (behind ++ source.glyphs.dropWhile (·.spot.line ≤ n)) := by
    have h := @takeWhile_append_dropWhile _ (·.spot.line ≤ n) source.glyphs
    rw [hsplit, append_assoc, cons_append] at h
    exact h.symm
  have hmem : glyph ∈ source.glyphs := by rw [hglyphs]; simp
  have hline : glyph.spot.line ≤ n := by
    refine @line_of_mem_takeWhile source n glyph ?_
    rw [hsplit]
    simp
  have hholds := holds_of_mem_glyphs hmem
  have hclose : glyph.char = '{' → source.matchingClose glyph.spot '{' '}' =
      closeIn '{' '}' (1 : Nat) (behind ++ source.glyphs.dropWhile (·.spot.line ≤ n)) := by
    intro hbrace
    rw [matchingClose, glyphsFrom_of_split hglyphs, closeIn, if_pos (by simp [hbrace])]
    rfl
  constructor
  · intro hopen
    have hbrace : glyph.char = '{' := Option.some.inj (hholds.symm.trans hopen.brace)
    refine ⟨hbrace, Nat.eq_zero_of_not_pos fun hpos => ?_⟩
    obtain ⟨close, hfound⟩ := Option.isSome_iff_exists.mp
      ((closeIn_isSome_iff Nat.one_pos behind).mpr hpos)
    have hbelow := hopen.lt_close close (by rw [hclose hbrace, closeIn_append, hfound]; rfl)
    obtain ⟨other, hother, rfl, -⟩ := of_closeIn hfound
    have hmem : other ∈ source.glyphs.takeWhile (·.spot.line ≤ n) := by
      rw [hsplit]
      exact mem_append_right _ (.tail _ hother)
    have := line_of_mem_takeWhile hmem
    omega
  · rintro ⟨hbrace, hzero⟩
    refine ⟨hbrace ▸ hholds, hline, fun close hfound => ?_⟩
    have hnone : closeIn '{' '}' (1 : Nat) behind = none := by
      rw [← Option.not_isSome_iff_eq_none, closeIn_isSome_iff Nat.one_pos]
      omega
    rw [hclose hbrace, closeIn_append, hnone] at hfound
    obtain ⟨other, hother, rfl, -⟩ := of_closeIn hfound
    exact line_of_mem_dropWhile hother

/-! ### The walk backwards -/

/-- One step of the walk. With the braces behind a code character counted, the character decides
if it opens a class that is left open; else it is counted too. -/
theorem enclosingBefore_cons (source : Source) (glyph : Glyph) (rest behind : List Glyph) :
    source.enclosingBefore (unopened behind) (glyph :: rest) =
      if glyph.char = '{' ∧ unopened behind = 0 then
        (source.headOfBrace glyph.spot).or (source.enclosingBefore (unopened (glyph :: behind)) rest)
      else source.enclosingBefore (unopened (glyph :: behind)) rest := by
  rw [enclosingBefore.eq_def, unopened]
  by_cases hclosing : glyph.char = '}'
  · simp [hclosing]
  · by_cases hopening : glyph.char = '{'
    · cases hcount : unopened behind with
      | zero =>
        cases hhead : source.headOfBrace glyph.spot <;> simp [hopening, hhead]
      | succ count => simp [hopening]
    · simp [hopening, hclosing]

/-- The walk over the code characters in `front`, with those in `behind` counted already, takes
the last open class in `front`, if there is one. -/
theorem enclosingBefore_reverse {front behind : List Glyph}
    (hsplit : source.glyphs.takeWhile (·.spot.line ≤ n) = front ++ behind) :
    (∃ glyph ∈ front, source.ClassOpenAt n glyph.spot ∧
        source.enclosingBefore (unopened behind) front.reverse = source.headOfBrace glyph.spot ∧
        ∀ other ∈ front, source.ClassOpenAt n other.spot →
          glyph.spot.before other.spot = false) ∨
      (∀ glyph ∈ front, ¬ source.ClassOpenAt n glyph.spot) ∧
        source.enclosingBefore (unopened behind) front.reverse = none := by
  induction front using reverseRecOn generalizing behind with
  | nil => exact .inr ⟨nofun, rfl⟩
  | append_singleton front glyph ih =>
    rw [append_assoc, singleton_append] at hsplit
    rw [reverse_append, reverse_singleton, singleton_append, enclosingBefore_cons]
    have hopen := openAt_iff hsplit
    by_cases hclass : source.ClassOpenAt n glyph.spot
    · obtain ⟨decl, hdecl⟩ := Option.isSome_iff_exists.mp hclass.head
      refine .inl ⟨glyph, by simp, hclass, ?_, fun other hother _ => ?_⟩
      · rw [if_pos (hopen.mp hclass.toOpenAt), hdecl]
        rfl
      · have hsorted := source.pairwise_glyphs.sublist
          (takeWhile_sublist (·.spot.line ≤ n))
        rw [hsplit, pairwise_append] at hsorted
        rw [Bool.eq_false_iff, ne_eq, Spot.before_def]
        rcases mem_append.mp hother with hother | hother
        · have := hsorted.2.2 other hother glyph (.head _)
          rw [Spot.before_def] at this
          omega
        · obtain rfl := mem_singleton.mp hother
          omega
    · have hnext : (if glyph.char = '{' ∧ unopened behind = 0 then
          (source.headOfBrace glyph.spot).or
            (source.enclosingBefore (unopened (glyph :: behind)) front.reverse)
          else source.enclosingBefore (unopened (glyph :: behind)) front.reverse) =
          source.enclosingBefore (unopened (glyph :: behind)) front.reverse := by
        split
        · rename_i hbrace
          have hnone : source.headOfBrace glyph.spot = none :=
            Option.not_isSome_iff_eq_none.mp fun hhead => hclass ⟨hopen.mpr hbrace, hhead⟩
          rw [hnone]
          rfl
        · rfl
      rw [hnext]
      refine (ih hsplit).imp (fun hfound => ?_) (fun hnone => ?_)
      · obtain ⟨found, hmem, hfound, heq, hlast⟩ := hfound
        refine ⟨found, mem_append_left _ hmem, hfound, heq, fun other hother hother' => ?_⟩
        rcases mem_append.mp hother with hother | hother
        · exact hlast other hother hother'
        · obtain rfl := mem_singleton.mp hother
          exact absurd hother' hclass
      · refine ⟨fun other hother => ?_, hnone.2⟩
        rcases mem_append.mp hother with hother | hother
        · exact hnone.1 other hother
        · obtain rfl := mem_singleton.mp hother
          exact hclass

theorem OpenAt.mem_takeWhile {spot : Spot} (h : source.OpenAt n spot) :
    ⟨spot, '{'⟩ ∈ source.glyphs.takeWhile (·.spot.line ≤ n) := by
  have hmem := h.brace.mem_glyphs
  rw [← takeWhile_append_dropWhile (p := (·.spot.line ≤ n)) (l := source.glyphs)] at hmem
  refine (mem_append.mp hmem).resolve_right fun hbelow => ?_
  exact absurd (line_of_mem_dropWhile hbelow) (Nat.not_lt.mpr h.line_le)

/-- **The innermost class.** A line of a source that declares no class itself belongs to the class
whose brace is the last one that is open at the end of the line, and to none if no class is open
there. -/
theorem enclosingDeclaration_eq_innermost (source : Source) {n : Nat} (hline : n < source.size)
    (hhead : Head.of? (source.code n) = none) :
    (∃ spot, source.Innermost n spot ∧
        source.enclosingDeclaration n = source.headOfBrace spot) ∨
      (∀ spot, ¬ source.ClassOpenAt n spot) ∧ source.enclosingDeclaration n = none := by
  rw [enclosingDeclaration, if_neg (Nat.not_le.mpr hline), hhead, if_neg (by simp)]
  refine (@enclosingBefore_reverse source n _ [] (append_nil _).symm).imp (fun hfound => ?_)
    (fun hnone => ?_)
  · obtain ⟨glyph, -, hclass, heq, hlast⟩ := hfound
    exact ⟨glyph.spot, ⟨hclass, fun other hother =>
      hlast ⟨other, '{'⟩ hother.toOpenAt.mem_takeWhile hother⟩, heq⟩
  · exact ⟨fun spot hspot => hnone.1 ⟨spot, '{'⟩ hspot.toOpenAt.mem_takeWhile hspot, hnone.2⟩

/-- A class that is never closed, with an anonymous class inside. -/
def anonymousInside : String :=
  "class A \x7b\n  function f() \x7b return new class \x7b\n    public $x;\n  \x7d; \x7d\n  public $y;\n"

/-- The line behind the anonymous class belongs to the class outside. -/
theorem innermost_anonymousInside :
    4 < (Source.ofText anonymousInside).size ∧
      Head.of? ((Source.ofText anonymousInside).code 4) = none ∧
      ∃ spot, (Source.ofText anonymousInside).Innermost 4 spot ∧
        (Source.ofText anonymousInside).headOfBrace spot = some 0 := by
  have hline : 4 < (Source.ofText anonymousInside).size := by decide +kernel
  have hhead : Head.of? ((Source.ofText anonymousInside).code 4) = none := by decide +kernel
  have hfound : (Source.ofText anonymousInside).enclosingDeclaration 4 = some 0 := by
    decide +kernel
  refine ⟨hline, hhead, ?_⟩
  rcases enclosingDeclaration_eq_innermost (Source.ofText anonymousInside) hline hhead with
    ⟨spot, hspot, heq⟩ | ⟨-, hnone⟩
  · exact ⟨spot, hspot, heq.symm.trans hfound⟩
  · rw [hfound] at hnone
    cases hnone

end ServiceInjection.Source

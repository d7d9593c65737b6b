import ServiceInjection.Proofs.Outline.Blocks
import ServiceInjection.Proofs.Source.Nesting

/-!
# Outline.Body

A class whose body is exchanged for another one. The declaration is found in the same
way, and its braces match again if the braces in both bodies are nested. If the new body
consists of blocks, the class has the members of these blocks
(`Outline.ofDeclaration_body`).
-/

namespace ServiceInjection

open Text List

namespace Source

variable {front lines back : List Line}

/-! ### Searches that stay within some lines -/

theorem firstOf_of_around {spot : Spot} {targets : List Char} {glyph : Glyph}
    (hspot : spot.line < lines.length)
    (h : (around front lines back).firstOf (spot.down front.length) targets = some glyph)
    (hglyph : glyph.spot.line < front.length + lines.length) :
    ∃ inner, (ofLines lines).firstOf spot targets = some inner ∧
      glyph = inner.down front.length := by
  rw [firstOf, glyphsFrom_around hspot, find?_append, find?_map,
    show find? ((fun x => targets.contains x.char) ∘ Glyph.down front.length)
      ((ofLines lines).glyphsFrom spot) = (ofLines lines).firstOf spot targets from rfl] at h
  cases hinner : (ofLines lines).firstOf spot targets with
  | some inner =>
    rw [hinner] at h
    exact ⟨inner, rfl, (Option.some.inj h).symm⟩
  | none =>
    rw [hinner] at h
    have hmem := mem_of_find?_eq_some (show _ = some glyph from h)
    have := (of_mem_glyphsOf hmem).1
    omega

/-- The code characters from one of them on are that one and those behind it. -/
theorem glyphsFrom_of_split {source : Source} {glyph : Glyph} {before behind : List Glyph}
    (h : source.glyphs = before ++ glyph :: behind) :
    source.glyphsFrom glyph.spot = glyph :: behind := by
  have hsorted := source.pairwise_glyphs
  rw [h, pairwise_append] at hsorted
  rw [glyphsFrom, h, dropWhile_append_of_pos fun other hother =>
    hsorted.2.2 other hother glyph mem_cons_self]
  refine dropWhile_cons_of_neg ?_
  rw [Spot.before_def]
  omega

theorem glyphsFrom_of_mem {source : Source} {glyph : Glyph} (h : glyph ∈ source.glyphs) :
    ∃ rest, source.glyphsFrom glyph.spot = glyph :: rest := by
  obtain ⟨before, behind, hsplit⟩ := append_of_mem h
  exact ⟨behind, glyphsFrom_of_split hsplit⟩

/-! ### Braces of a body -/

/-- The brace that opens a body is closed behind it, wherever the body stands and
whatever nested code it consists of. -/
theorem matchingClose_body {front header body back front' body' : List Line} {opening : Glyph}
    {close : Spot} (hopening : opening ∈ (ofLines header).glyphs) (hbrace : opening.char = '{')
    (hbody : NestedIn '{' '}' 0 (body.flatMap Line.code) = true)
    (hbody' : NestedIn '{' '}' 0 (body'.flatMap Line.code) = true)
    (h : (around front header (body ++ back)).matchingClose (opening.spot.down front.length) '{' '}' =
      some close)
    (hclose : front.length + header.length ≤ close.line) :
    ∃ inner : Spot, close = inner.down (front.length + header.length + body.length) ∧
      (around front' header (body' ++ back)).matchingClose (opening.spot.down front'.length) '{' '}' =
        some (inner.down (front'.length + header.length + body'.length)) := by
  have hline : opening.spot.line < header.length := (holds_of_mem_glyphs hopening).line_lt
  obtain ⟨rest, hrest⟩ := glyphsFrom_of_mem hopening
  have hstart : ∀ (k : Nat) (more : List Glyph),
      closeIn '{' '}' 0 (((ofLines header).glyphsFrom opening.spot).map (.down k) ++ more) =
        closeIn '{' '}' 1 (rest.map (.down k) ++ more) := by
    intro k more
    rw [hrest, map_cons, cons_append, closeIn, if_pos (by simp [Glyph.down, hbrace])]
    rfl
  have hnone : closeIn '{' '}' 1 rest = none := by
    cases hcase : closeIn '{' '}' 1 rest with
    | none => rfl
    | some inner =>
      rw [matchingClose, glyphsFrom_around hline, hstart] at h
      rw [closeIn_append, closeIn_down, hcase] at h
      obtain ⟨glyph, hmem, rfl, -⟩ := of_closeIn hcase
      have hglyph : glyph ∈ (ofLines header).glyphs :=
        (dropWhile_suffix _).subset (by
          rw [show (ofLines header).glyphs.dropWhile (·.spot.before opening.spot) = opening :: rest
            from hrest]
          exact mem_cons_of_mem _ hmem)
      have := (holds_of_mem_glyphs hglyph).line_lt
      have hline' : close.line = front.length + glyph.spot.line := by
        rw [← Option.some.inj h]
        rfl
      have : (ofLines header).lines.length = header.length := rfl
      omega
  have hpos : 0 < depthBehind '{' '}' 1 rest := depthBehind_pos (by decide) hnone
  have hsearch : ∀ (front body : List Line), NestedIn '{' '}' 0 (body.flatMap Line.code) = true →
      (around front header (body ++ back)).matchingClose (opening.spot.down front.length) '{' '}' =
        (closeIn '{' '}' (depthBehind '{' '}' 1 rest) (glyphsOf 0 back)).map
          (.down (front.length + header.length + body.length)) := by
    intro front body hbody
    have hnested := closeIn_nested (glyphsOf (front.length + header.length + body.length) back) hpos
      (by rwa [map_char_glyphsOf] : NestedIn '{' '}' 0
        ((glyphsOf (front.length + header.length) body).map (·.char)) = true)
    rw [matchingClose, glyphsFrom_around hline, hstart, closeIn_append, closeIn_down,
      hnone, depthBehind_down, glyphsOf_append, ← closeIn_down, ← glyphsOf_down, Nat.add_zero]
    simpa using hnested
  rw [hsearch front body hbody] at h
  obtain ⟨inner, hinner, rfl⟩ := Option.map_eq_some_iff.mp h
  exact ⟨inner, rfl, by rw [hsearch front' body' hbody', hinner]; rfl⟩

end Source

/-! ### A class with another body -/

/-- **A class with another body.** If the body of a class and the body that takes its
place consist of code with nested braces, the class is found again, and if the new body
consists of blocks, it has the members of these. -/
theorem Outline.ofDeclaration_body {front header body back front' body' : List Line}
    {outline : Outline} {added : Members}
    (h : Outline.ofDeclaration (.around front header (body ++ back)) front.length = some outline)
    (hopen : outline.decl.openBraceLine + 1 = front.length + header.length)
    (hclose : outline.decl.closeBraceLine = front.length + header.length + body.length)
    (hbody : NestedIn '{' '}' 0 (body.flatMap Line.code) = true)
    (hbody' : NestedIn '{' '}' 0 (body'.flatMap Line.code) = true) (hrun : Run body' added) :
    ∃ outline', Outline.ofDeclaration (.around front' header (body' ++ back)) front'.length =
        some outline' ∧
      outline'.toMembers.moved 0 = added.moved (front'.length + header.length) ∧
      outline'.decl.kind = outline.decl.kind ∧ outline'.decl.name = outline.decl.name ∧
      outline'.decl.openBraceLine + 1 = front'.length + header.length ∧
      outline'.decl.closeBraceLine = front'.length + header.length + body'.length := by
  obtain ⟨head, opening, close, hhead, hopening, hbrace, hmatch, hkind, hname, -, hopenLine,
    hcloseLine, -⟩ := of_ofDeclaration h
  have hheader : 0 < header.length := by
    have := Source.line_le_of_not_before (Source.firstOf_spec hopening).2.1
    have : front.length ≤ opening.spot.line := this
    omega
  have hcode : ∀ (front back : List Line), (Source.around front header back).code front.length =
      (Source.ofLines header).code 0 := fun front back => by
    rw [Source.code, Source.code, ← Nat.add_zero front.length, Source.line_around hheader]
  rw [hcode] at hhead
  obtain ⟨inner, hinner, rfl⟩ := @Source.firstOf_of_around front header (body ++ back)
    ⟨0, head.stop⟩ _ _ hheader hopening (by omega)
  have hline : inner.spot.line + 1 = header.length := by
    have : (inner.down front.length).spot.line = front.length + inner.spot.line := rfl
    omega
  have hmem : inner ∈ (Source.ofLines header).glyphs :=
    (dropWhile_suffix _).subset (mem_of_find?_eq_some hinner)
  obtain ⟨last, rfl, hmatch'⟩ := @Source.matchingClose_body front header body back front' body'
    inner close hmem hbrace hbody hbody' hmatch (by omega)
  have hlast : last.line = 0 := by
    rw [hcloseLine, Spot.down_line] at hclose
    omega
  have hopening' := @Source.firstOf_around front' header (body' ++ back) ⟨0, head.stop⟩ _ _
    hinner hheader
  have hsome : ∃ outline', Outline.ofDeclaration (.around front' header (body' ++ back))
      front'.length = some outline' := by
    refine Option.isSome_iff_exists.mp ?_
    simp only [Outline.ofDeclaration, hcode, hhead, Option.bind_eq_bind, Option.bind_some]
    rw [show (⟨front'.length, head.stop⟩ : Spot) = Spot.down front'.length ⟨0, head.stop⟩ from rfl,
      hopening', Option.bind_some, show (inner.down front'.length).char = '{' from hbrace,
      show (inner.down front'.length).spot = inner.spot.down front'.length from rfl, hmatch']
    rfl
  obtain ⟨outline', houtline'⟩ := hsome
  obtain ⟨head', opening', close', hhead', hfirst', -, hclose', hkind', hname', -, hopenLine',
    hcloseLine', hmembers'⟩ := of_ofDeclaration houtline'
  rw [hcode, hhead] at hhead'
  cases hhead'
  rw [show (⟨front'.length, head.stop⟩ : Spot) = Spot.down front'.length ⟨0, head.stop⟩ from rfl,
    hopening'] at hfirst'
  cases hfirst'
  rw [show (inner.down front'.length).spot = inner.spot.down front'.length from rfl, hmatch']
    at hclose'
  cases hclose'
  rw [show (inner.down front'.length).spot = inner.spot.down front'.length from rfl,
    Spot.down_line, Spot.down_line, hlast] at hmembers'
  have hopenEq : outline'.decl.openBraceLine = front'.length + inner.spot.line := hopenLine'
  rw [Spot.down_line, hlast] at hcloseLine'
  refine ⟨outline', houtline', ?_, hkind'.trans hkind.symm, hname'.trans hname.symm, by omega,
    by omega⟩
  have hne : ¬ (front'.length + inner.spot.line ==
      front'.length + header.length + body'.length + 0) = true := by
    rw [beq_iff_eq]
    omega
  have hsource : Source.around front' header (body' ++ back) =
      Source.around (front' ++ header) body' back := by
    simp [Source.around]
  have hlength : (front' ++ header).length = front'.length + header.length := length_append
  rw [hmembers', if_neg hne, hsource,
    hrun.ofBody (by rw [hlength]; omega) (by rw [hlength]; omega), hlength]

end ServiceInjection

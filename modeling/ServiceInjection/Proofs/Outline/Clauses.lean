import ServiceInjection.Proofs.Outline.FoundImports

/-!
# Outline.Clauses

One more interface in the header of a class. The clauses of a header are found by a search for
`extends` and `implements`, so text that is added may change what is found in front of it: a name
behind `extends` becomes the parent, and one behind `implements` an interface. A header whose
clauses are complete keeps what it says when the name of an interface is written behind it
(`parentOf_append`, `interfacesOf_append`).
-/

namespace ServiceInjection

open Text List

variable {cs x gap name list tail : List Char}

/-! ### Text behind a text -/

namespace Text

theorem literal_append {word : String} (hword : ∀ c ∈ word.toList, isNameChar c = true)
    (hx : ∀ c ∈ x.head?, isNameChar c = false) (cs : List Char) :
    literal word (cs ++ x) = (literal word cs).map (· ++ x) := by
  unfold literal
  generalize word.toList = expected at hword
  induction expected generalizing cs with
  | nil => rfl
  | cons e es ih =>
    obtain ⟨he, hes⟩ := forall_mem_cons.mp hword
    cases cs with
    | nil =>
      cases x with
      | nil => rfl
      | cons c x =>
        have hne : e ≠ c := fun heq => absurd he (by rw [heq, hx c rfl]; decide)
        simp [literalChars, hne]
    | cons c cs =>
      rw [cons_append, literalChars, literalChars, ih cs hes]
      split <;> rfl

theorem someBlanks_append_right (h : ¬ Blank cs) (x : List Char) :
    someBlanks (cs ++ x) = (someBlanks cs).map (· ++ x) := by
  cases cs with
  | nil => exact absurd (forall_mem_nil _) h
  | cons c cs =>
    rw [cons_append, someBlanks, someBlanks]
    split
    · rename_i hc
      have hsolid : blanks cs ≠ [] := fun hnil =>
        h (forall_mem_cons.mpr ⟨hc, dropWhile_eq_nil_iff.mp hnil⟩)
      rw [blanks, dropWhile_append]
      exact congrArg some (if_neg (mt List.isEmpty_iff.mp hsolid))
    · rfl

theorem run_append_right {accepts : Char → Bool} (hx : ∀ c ∈ x.head?, accepts c = false)
    (cs : List Char) : run accepts (cs ++ x) = (run accepts cs).map fun hit => (hit.1, hit.2 ++ x) := by
  obtain ⟨htake, hdrop⟩ := span_append hx cs
  rw [run, run, htake, hdrop]
  cases cs.takeWhile accepts <;> rfl

/-- Whether `follow` says how what a recogniser reads changes if `x` follows the text. -/
def Follows {α : Type} (recognize : List Char → Option (α × List Char)) (cs x : List Char)
    (follow : α × List Char → α × List Char) : Prop :=
  ∀ tail, tail <:+ cs → tail ≠ [] → recognize (tail ++ x) = (recognize tail).map follow

section

variable {α : Type} {recognize : List Char → Option (α × List Char)}
  {follow : α × List Char → α × List Char}

/-- What follows a text changes nothing about a keyword in it, if none stands at its end. -/
theorem Follows.keyword {word : String} (hword : ∀ c ∈ word.toList, isNameChar c = true)
    (hx : ∀ c ∈ x.head?, isNameChar c = false) (hends : ¬ word.toList <:+ cs)
    (h : Follows recognize cs x follow) :
    Follows (fun cs => (literal word cs).bind recognize) cs x follow := by
  rintro tail htail -
  dsimp only
  rw [literal_append hword hx]
  cases hread : literal word tail with
  | none => rfl
  | some rest =>
    obtain rfl := literal_eq_some.mp hread
    refine h rest ((suffix_append ..).trans htail) ?_
    rintro rfl
    exact hends (append_nil word.toList ▸ htail)

/-- The first match in a text stays the first one, whatever follows the text. -/
theorem firstMatchFrom_follow (allowed : Option Char → Bool) (cs : List Char)
    (before : Option Char) (index : Nat) :
    (∃ start tail hit, start + tail.length = index + cs.length ∧ recognize tail = some hit ∧
      ∀ x follow, Follows recognize cs x follow →
        firstMatchFrom allowed recognize before index (cs ++ x) =
          some ⟨start, start + ((tail ++ x).length - (follow hit).2.length), (follow hit).1⟩) ∨
      ∀ x follow, Follows recognize cs x follow →
        firstMatchFrom allowed recognize before index (cs ++ x) =
          firstMatchFrom allowed recognize (cs.getLast?.or before) (index + cs.length) x := by
  induction cs generalizing before index with
  | nil => exact .inr fun x _ _ => rfl
  | cons c cs ih =>
    have hrest : ∀ {x follow}, Follows recognize (c :: cs) x follow →
        Follows recognize cs x follow :=
      fun h tail htail => h tail (htail.trans (suffix_cons c cs))
    cases hhere : (if allowed before then recognize (c :: cs) else none) with
    | some hit =>
      obtain ⟨hallowed, hread⟩ := Option.ite_none_right_eq_some.mp hhere
      refine .inl ⟨index, c :: cs, hit, rfl, hread, fun x follow h => ?_⟩
      have hfollow := h _ (suffix_refl _) (cons_ne_nil _ _)
      rw [hread, cons_append] at hfollow
      rw [cons_append, firstMatchFrom, if_pos hallowed, hfollow]
      rfl
    | none =>
      have hskip : ∀ {x follow}, Follows recognize (c :: cs) x follow →
          firstMatchFrom allowed recognize before index (c :: cs ++ x) =
            firstMatchFrom allowed recognize (some c) (index + 1) (cs ++ x) := by
        intro x follow h
        have hfollow := h _ (suffix_refl _) (cons_ne_nil _ _)
        rw [cons_append] at hfollow ⊢
        rw [firstMatchFrom, hfollow]
        split at hhere <;> simp_all
      rcases ih (some c) (index + 1) with ⟨start, tail, hit, hstart, hread, hfound⟩ | hnone
      · refine .inl ⟨start, tail, hit, by rw [length_cons]; omega, hread, fun x follow h => ?_⟩
        rw [hskip h, hfound x follow (hrest h)]
      · refine .inr fun x follow h => ?_
        rw [hskip h, hnone x follow (hrest h), length_cons, getLast?_cons,
          show index + 1 + cs.length = index + (cs.length + 1) by omega]
        cases cs.getLast? <;> rfl

end

end Text

/-! ### Lists of names -/

/-- The characters of a list of names. -/
def isListChar (c : Char) : Bool := isNameChar c || isBlank c || c == ','

/-- Reads a list of names behind a blank. -/
def listOf (cs : List Char) : Option (List Char × List Char) :=
  match cs.takeWhile isListChar with
  | first :: _ :: _ =>
    if isBlank first then some (cs.takeWhile isListChar, cs.dropWhile isListChar) else none
  | _ => none

theorem implementsClause_eq (cs : List Char) :
    implementsClause cs = (literal "implements" cs).bind listOf := rfl

/-- The names of a list. -/
def namesIn (list : List Char) : List String :=
  (((splitBy (· == ',') list).map trim).filter (!·.isEmpty)).map String.ofList

theorem namesIn_append_comma (list rest : List Char) :
    namesIn (list ++ ',' :: rest) = namesIn list ++ namesIn rest := by
  have hsplit : splitBy (· == ',') (list ++ ',' :: rest) =
      splitBy (· == ',') list ++ splitBy (· == ',') rest := by
    induction list with
    | nil => simp [Text.splitBy]
    | cons c list ih =>
      by_cases hc : c = ','
      · simp [Text.splitBy, hc, ih]
      · obtain ⟨piece, more, hcons⟩ := exists_cons_of_ne_nil (splitBy_ne_nil (· == ',') list)
        rw [cons_append, splitBy_cons (by simpa using hc), ih, splitBy_cons (by simpa using hc), hcons]
        rfl
  rw [namesIn, hsplit]
  simp [namesIn]

theorem namesIn_of_not_mem (h : ',' ∉ list) : namesIn list =
    if trim list = [] then [] else [String.ofList (trim list)] := by
  rw [namesIn, splitBy_of_forall fun c hc => by simpa using fun heq : c = ',' => h (heq ▸ hc)]
  by_cases hnil : trim list = [] <;> simp [hnil]

theorem namesIn_append_blank (hgap : Blank gap) (list : List Char) :
    namesIn (list ++ gap) = namesIn list := by
  have hcomma : ',' ∉ gap := hgap.not_mem (by decide)
  by_cases hmem : ',' ∈ list
  · obtain ⟨front, rest, hlist, -⟩ := eq_append_cons_of_mem hmem
    rw [hlist, append_assoc, cons_append, namesIn_append_comma, namesIn_append_comma,
      namesIn_append_blank hgap rest]
  · rw [namesIn_of_not_mem (not_mem_append hmem hcomma), namesIn_of_not_mem hmem,
      trim_append_right _ hgap]
termination_by list.length
decreasing_by
  rw [hlist, List.length_append, List.length_cons]
  omega

theorem namesIn_name (hname : IsQualified name) (hgap : Blank gap) :
    namesIn (' ' :: (name ++ gap)) = [String.ofList name] := by
  have hcomma : ',' ∉ ' ' :: name := by
    rintro (_ | ⟨_, hmem⟩)
    exact absurd (hname.2 _ hmem) (by decide)
  have htrim : trim (' ' :: name) = name :=
    (trim_append_left name (a := [' ']) (by decide)).trans hname.trim_eq
  rw [← cons_append, namesIn_append_blank hgap, namesIn_of_not_mem hcomma, htrim, if_neg hname.1]

/-! ### Clauses -/

theorem Text.not_blank_of_suffix_trimEnd (h : tail <:+ trimEnd cs) (hne : tail ≠ []) :
    ¬ Blank tail := by
  intro hblank
  obtain ⟨front, hfront⟩ := h
  have hlast := head?_dropWhile_not isBlank cs.reverse
  rw [← getLast?_reverse, ← trimEnd, ← hfront, getLast?_append_of_ne_nil _ hne,
    getLast?_eq_some_getLast hne] at hlast
  simp [hblank _ (getLast_mem hne)] at hlast

/-- Whether the clauses of a header are complete: no keyword stands at its end, and its list of
interfaces, if it has one, goes up to the end and is not empty. -/
structure CompleteClauses (header : List Char) : Prop where
  parent : ¬ "extends".toList <:+ trimEnd header
  interfaces : ¬ "implements".toList <:+ trimEnd header
  list : ∀ m ∈ firstWordMatch implementsClause header,
    m.stop = header.length ∧ interfacesOf header ≠ []

section

variable {header : List Char} (h : CompleteClauses header)
  (hx : ∀ c ∈ x.head?, isNameChar c = false)

include h hx

theorem CompleteClauses.extendsClause_follows :
    Follows extendsClause (trimEnd header) x fun hit => (hit.1, hit.2 ++ x) := by
  refine .keyword (by decide +kernel) hx h.parent fun rest hrest hne => ?_
  rw [someBlanks_append_right (not_blank_of_suffix_trimEnd hrest hne)]
  cases someBlanks rest with
  | none => rfl
  | some rest => exact run_append_right hx rest

theorem CompleteClauses.implementsClause_follows (hlist : ∀ c ∈ x, isListChar c = true) :
    Follows implementsClause (trimEnd header) x fun hit =>
      if hit.2 = [] then (hit.1 ++ x, []) else (hit.1, hit.2 ++ x) := by
  refine Follows.keyword (by decide +kernel) hx h.interfaces (show Follows listOf .. from ?_)
  intro rest hrest hne
  rw [listOf, listOf]
  by_cases hall : ∀ c ∈ rest, isListChar c = true
  · rw [takeWhile_eq_self_iff.mpr hall, dropWhile_eq_nil_iff.mpr hall,
      takeWhile_eq_self_iff.mpr (forall_mem_append.mpr ⟨hall, hlist⟩),
      dropWhile_eq_nil_iff.mpr (forall_mem_append.mpr ⟨hall, hlist⟩)]
    match rest with
    | [] => exact absurd rfl hne
    | [c] =>
      have hc : isBlank c = false := by simpa [Blank] using not_blank_of_suffix_trimEnd hrest hne
      cases x <;> simp [hc]
    | c :: d :: rest =>
      simp only [cons_append]
      split <;> simp
  · have hdrop : rest.dropWhile isListChar ≠ [] := mt dropWhile_eq_nil_iff.mp hall
    have htake : (rest.takeWhile isListChar).length ≠ rest.length := fun heq =>
      hall (takeWhile_eq_self_iff.mp ((List.takeWhile_prefix _).eq_of_length heq))
    rw [takeWhile_append, if_neg htake, dropWhile_append, if_neg (mt List.isEmpty_iff.mp hdrop)]
    split <;> (try split) <;> simp [hdrop]

end

/-! ### A new interface -/

section

variable (hname : IsQualified name) (hgap : Blank gap)

include hname hgap

/-- Nothing in a new name makes it a parent. -/
theorem extendsClause_eq_none {lead : List Char} (hlead : 'x' ∉ lead)
    (htail : tail <:+ lead ++ (name ++ gap)) : extendsClause tail = none := by
  refine Option.eq_none_iff_forall_ne_some.mpr fun hit hread => ?_
  simp only [extendsClause, Option.bind_eq_bind, Option.bind_eq_some_iff] at hread
  obtain ⟨rest, hword, behind, hblanks, hrun⟩ := hread
  obtain rfl := literal_eq_some.mp hword
  obtain ⟨rfl, hne, hletters⟩ := run_eq_some hrun
  obtain ⟨d, taken, htaken⟩ := exists_cons_of_ne_nil hne
  have hd : isNameChar d = true := hletters d (htaken ▸ mem_cons_self)
  match rest with
  | [] => cases hblanks
  | c :: rest =>
    rw [someBlanks] at hblanks
    obtain ⟨hc, hblanks⟩ := Option.ite_none_right_eq_some.mp hblanks
    have hmem : d ∈ rest := (dropWhile_suffix isBlank).subset
      (show d ∈ blanks rest by rw [Option.some.inj hblanks, htaken]; exact mem_cons_self)
    -- The lead has no `x`, so the blank and the name behind `extends` would stand in the new name.
    have hsub : ['x', c, d] <+ lead ++ (name ++ gap) :=
      ((singleton_sublist.mpr (by decide)).append
        ((singleton_sublist.mpr hmem).cons_cons c)).trans htail.sublist
    obtain ⟨_ | ⟨e, front⟩, back, hsplit, hfront, hback⟩ := sublist_append_iff.mp hsub
    · obtain rfl : _ = back := hsplit
      obtain ⟨_ | ⟨e, front⟩, back, hsplit, hfront, hback⟩ :=
        sublist_append_iff.mp ((sublist_cons_self ..).trans hback)
      · obtain rfl : _ = back := hsplit
        have hblank := hgap d (hback.subset (by simp))
        rw [isBlank_of_isNameChar hd] at hblank
        cases hblank
      · obtain ⟨rfl, -⟩ := cons.inj hsplit
        rw [isBlank_of_isNameChar (hname.2 c (hfront.subset mem_cons_self))] at hc
        cases hc
    · obtain ⟨rfl, -⟩ := cons.inj hsplit
      exact hlead (hfront.subset mem_cons_self)

theorem isListChar_of_name : ∀ c ∈ ' ' :: (name ++ gap), isListChar c = true := by
  refine forall_mem_cons.mpr ⟨by decide, forall_mem_append.mpr ⟨fun c hc => ?_, fun c hc => ?_⟩⟩
  · rw [isListChar, hname.2 c hc, Bool.true_or, Bool.true_or]
  · rw [isListChar, hgap c hc, Bool.or_true, Bool.true_or]

theorem implementsClause_name :
    implementsClause ("implements".toList ++ ' ' :: (name ++ gap)) =
      some (' ' :: (name ++ gap), []) := by
  have hlist := isListChar_of_name hname hgap
  obtain ⟨d, rest, hcons⟩ := exists_cons_of_ne_nil (append_ne_nil_of_left_ne_nil hname.1 gap)
  rw [hcons] at hlist ⊢
  rw [implementsClause_eq, literal_eq_some.mpr rfl, Option.bind_some, listOf,
    takeWhile_eq_self_iff.mpr hlist, dropWhile_eq_nil_iff.mpr hlist]
  exact if_pos (by decide)

end

theorem implementsClause_of_blank {c : Char} (hc : isBlank c = true) (cs : List Char) :
    implementsClause (c :: cs) = none := by
  have hne : 'i' ≠ c := by
    rintro rfl
    exact absurd hc (by decide)
  rw [implementsClause_eq, @literal_eq_none _ _ "implements" _ _ rfl hne, Option.bind_none]

theorem interfacesOf_eq (header : List Char) : interfacesOf header =
    ((firstWordMatch implementsClause header).map (namesIn ·.value)).getD [] := by
  rw [interfacesOf]
  cases firstWordMatch implementsClause header <;> rfl

theorem Text.Blank.not_isNameChar_head (h : Blank gap) : ∀ c ∈ gap.head?, isNameChar c = false :=
  fun c hc => not_isNameChar_of_isBlank (h c (mem_of_mem_head? hc))

section

variable {header lead : List Char} (h : CompleteClauses header) (hgap : Blank gap)
  (hheader : header = trimEnd header ++ gap) (hname : IsQualified name)
  (hlead : lead = if (interfacesOf header).isEmpty then " implements ".toList else ", ".toList)

include hlead in
theorem not_isNameChar_lead (cs : List Char) :
    'x' ∉ lead ∧ ∀ c ∈ (lead ++ cs).head?, isNameChar c = false := by
  rw [hlead]
  split <;> exact ⟨by decide +kernel, fun c hc => Option.some.inj hc ▸ by decide⟩

include h hgap hheader hname hlead

/-- Written behind complete clauses, a name leaves the parent as it is. -/
theorem parentOf_append : parentOf (trimEnd header ++ (lead ++ (name ++ gap))) = parentOf header := by
  obtain ⟨hx, hleads⟩ := not_isNameChar_lead hlead (name ++ gap)
  have hnone : ∀ {tail}, tail <:+ lead ++ (name ++ gap) → extendsClause tail = none :=
    extendsClause_eq_none hname hgap hx
  have hold := h.extendsClause_follows hgap.not_isNameChar_head
  have hnew := h.extendsClause_follows hleads
  rw [parentOf, parentOf, firstWordMatch, firstWordMatch]
  nth_rewrite 2 [hheader]
  rcases firstMatchFrom_follow outsideWord (trimEnd header) none 0 with
    ⟨start, tail, hit, -, -, hfound⟩ | hsearch
  · rw [hfound _ _ hold, hfound _ _ hnew]
    rfl
  · rw [hsearch _ _ hold, hsearch _ _ hnew, firstMatchFrom_eq_none fun _ htail => hnone <|
      htail.trans ((suffix_append ..).trans (suffix_append ..)), firstMatchFrom_eq_none fun _ => hnone]

/-- Written behind complete clauses, a name becomes the last of the interfaces. -/
theorem interfacesOf_append : interfacesOf (trimEnd header ++ (lead ++ (name ++ gap))) =
    interfacesOf header ++ [String.ofList name] := by
  have hlist := isListChar_of_name hname hgap
  have hadded : ∀ c ∈ lead ++ (name ++ gap), isListChar c = true := by
    rw [hlead]
    split <;> exact forall_mem_append.mpr ⟨by decide +kernel, (forall_mem_cons.mp hlist).2⟩
  have hblank : ∀ c ∈ gap, isListChar c = true := fun c hc => hlist c (by simp [hc])
  have hold := h.implementsClause_follows hgap.not_isNameChar_head hblank
  have hnew := h.implementsClause_follows (not_isNameChar_lead hlead _).2 hadded
  rw [interfacesOf_eq, firstWordMatch]
  rcases firstMatchFrom_follow outsideWord (trimEnd header) none 0 with
    ⟨start, tail, hit, hstart, hread, hfound⟩ | hsearch
  · have hmatch := hfound _ _ hold
    rw [← hheader, ← firstWordMatch] at hmatch
    obtain ⟨hstop, hne⟩ := h.list _ hmatch
    have hend : hit.2 = [] := by
      by_contra hrest
      have htail : tail ≠ [] := by
        rintro rfl
        cases hread
      have hlength := congrArg List.length hheader
      simp only [if_neg hrest, length_append] at hstop hlength
      have := length_pos_iff.mpr hrest
      have := length_pos_iff.mpr htail
      omega
    have hnames : interfacesOf header = namesIn hit.1 := by
      rw [interfacesOf_eq, hmatch, if_pos hend]
      exact namesIn_append_blank hgap _
    rw [hnames] at hlead hne ⊢
    rw [hfound _ _ hnew, if_pos hend, hlead, if_neg (by simpa using hne)]
    show namesIn (hit.1 ++ ',' :: ' ' :: (name ++ gap)) = _
    rw [namesIn_append_comma, namesIn_name hname hgap]
  · have hnil : interfacesOf header = [] := by
      rw [interfacesOf_eq, firstWordMatch]
      nth_rewrite 1 [hheader]
      rw [hsearch _ _ hold, firstMatchFrom_eq_none]
      · rfl
      · intro tail htail
        cases tail with
        | nil => rfl
        | cons c tail => exact implementsClause_of_blank (hgap c (htail.subset mem_cons_self)) tail
    have hsplit : " implements ".toList ++ (name ++ gap) =
        [' '] ++ ("implements".toList ++ ' ' :: (name ++ gap) ++ []) := by simp
    rw [hnil] at hlead ⊢
    rw [hsearch _ _ hnew, hlead, if_pos isEmpty_nil, hsplit, firstMatchFrom_append
      (forall_mem_singleton.mpr (implementsClause_of_blank (by decide))),
      firstMatchFrom_hit (by simp) rfl (by rw [append_nil]; exact implementsClause_name hname hgap)]
    exact namesIn_name hname hgap

end

end ServiceInjection

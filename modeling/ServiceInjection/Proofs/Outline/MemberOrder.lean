import Mathlib.Data.List.Induction
import Mathlib.Data.List.Pairwise
import Mathlib.Data.Option.Basic
import ServiceInjection.Outline.Analyze
import ServiceInjection.Proofs.Source.Stream

/-!
# Outline.MemberOrder

The members of a class in the order of its lines. What one line of the walk over a class body
can do is said once, in `MemberScan.step_reading`: it passes the line, or records one member
that starts on it, with the doc comment that waits. Since the walk goes on behind what it has
read, each member starts, with its doc comment, behind the end of every member before it
(`MemberScan.Recording`). So the lines of the members are in order and apart from each other,
and no doc comment belongs to two of them (`Members.Arranged`).
-/

namespace ServiceInjection

open Text List

variable {n : Nat} {source : Source} {layout : MethodLayout}

theorem Source.mem_span {first last : Nat} : n ∈ Source.span first last ↔ first ≤ n ∧ n ≤ last := by
  rw [span, mem_range'_1]
  omega

theorem Source.raw_ne_nil_of_code (h : source.code n ≠ []) : source.raw n ≠ [] := by
  intro hnil
  have hline : source.line n = [] := map_eq_nil_iff.mp hnil
  simp [Source.code, hline, Line.code] at h

theorem MethodLayout.spec {paramsOpen : Spot} (h : MethodLayout.at? source paramsOpen = some layout) :
    layout.paramsOpen = paramsOpen ∧ paramsOpen.line ≤ layout.paramsClose.line ∧
      layout.paramsClose.line ≤ layout.bodyOpen.line ∧
      layout.bodyOpen.line ≤ layout.bodyClose.line ∧
      source.Holds layout.bodyOpen '{' ∧ source.Holds layout.bodyClose '}' := by
  simp only [MethodLayout.at?, guard, Option.bind_eq_bind, Option.bind_eq_some_iff] at h
  obtain ⟨paramsClose, hparams, glyph, hopen, _, hguard, bodyClose, hclose, hlayout⟩ := h
  cases hlayout
  have hbrace : glyph.char = '{' := by
    split at hguard
    · rename_i hbrace
      simpa using hbrace
    · cases hguard
  obtain ⟨hholds, hbehind, -⟩ := Source.firstOf_spec hopen
  obtain ⟨hclose, hbehind'⟩ := Source.matchingClose_spec hclose
  have hopen : paramsClose.line ≤ glyph.spot.line :=
    Source.line_le_of_not_before (b := paramsClose.next) hbehind
  exact ⟨rfl, Source.line_le_of_not_before (Source.matchingClose_spec hparams).2, hopen,
    Source.line_le_of_not_before hbehind', hbrace ▸ hholds, hclose⟩

/-- Whether a method of a source has the given layout. -/
def MethodLayout.Starts (source : Source) (layout : MethodLayout) : Prop :=
  ∃ n head, MethodHead.of? (source.code n) = some head ∧
    MethodLayout.at? source ⟨n, head.paren⟩ = some layout

theorem MethodLayout.Starts.at? (h : layout.Starts source) :
    MethodLayout.at? source layout.paramsOpen = some layout := by
  obtain ⟨n, head, -, hlayout⟩ := h
  rw [(MethodLayout.spec hlayout).1, hlayout]

/-! ### Recorded members -/

namespace Method

/-- The layout of a method, if it has a body. -/
def layout? (source : Source) (method : Method) : Option MethodLayout :=
  (MethodHead.of? (source.code method.span.first)).bind fun head =>
    MethodLayout.at? source ⟨method.span.first, head.paren⟩

/-- The constructor that a method is, by its name, if it has a body. -/
def constructor? (source : Source) (method : Method) : Option Constructor :=
  if sameName method.name "__construct" then
    (method.layout? source).map (Constructor.ofLayout source · method.doc)
  else none

/-- The factory that a static method is, by its name, if it has a body. -/
def factory? (source : Source) (method : Method) : Option Factory :=
  if method.name == "create" && method.isStatic then
    (method.layout? source).map (Factory.ofLayout source · method.doc)
  else none

end Method

/-- A member as the walk records it. -/
inductive Recorded where
  | traitUse (span : LineSpan)
  | method (method : Method)
  | field (field : Field)

namespace Recorded

/-- The lines of a member; those of a property go to the end of its statement. -/
def span (source : Source) : Recorded → LineSpan
  | .traitUse span => span
  | .method member => member.span
  | .field property => ⟨property.line, source.lineOfFirst property.line ';'⟩

def doc : Recorded → Option LineSpan
  | .traitUse _ => none
  | .method member => member.doc
  | .field property => property.doc

def leadingLine (source : Source) (entry : Recorded) : Nat :=
  leadingLineOf entry.doc (entry.span source).first

def traitUse? : Recorded → Option LineSpan
  | .traitUse span => some span
  | _ => none

def method? : Recorded → Option Method
  | .method member => some member
  | _ => none

/-- The properties that a member declares. -/
def fields (source : Source) : Recorded → List Field
  | .traitUse _ => []
  | .method member => (member.constructor? source).toList.flatMap MemberScan.promotedFields
  | .field property => [property]

end Recorded

/-- The last line of the method that starts on line `n`. -/
def Source.methodEnd (source : Source) (n : Nat) (head : MethodHead) : Nat :=
  match MethodLayout.at? source ⟨n, head.paren⟩ with
  | some layout => layout.bodyClose.line
  | none => source.lineOfFirst n ';'

/-- The member that is read on line `n` with the doc comment `doc` in front. -/
inductive Recorded.ReadOn (source : Source) (n : Nat) (doc : Option LineSpan) : Recorded → Prop
  | traitUse : ReadOn source n doc (.traitUse ⟨n, MemberScan.traitUseEnd source n⟩)
  | method {head : MethodHead} (hhead : MethodHead.of? (source.code n) = some head) :
      ReadOn source n doc (.method ⟨head.name, ⟨n, source.methodEnd n head⟩, doc, head.isStatic⟩)
  | field {decl : VariableDecl} (hdecl : propertyDecl (source.code n) = some decl)
      (hconstant : isConstant (source.code n) = false) :
      ReadOn source n doc
        (.field ⟨String.ofList decl.name, n, decl.typeHint.map String.ofList, doc, false⟩)

/-- Members with one more. A constructor brings its promoted properties, and the first
constructor and the first factory count. -/
def Members.record (source : Source) (members : Members) : Recorded → Members
  | .traitUse span => { members with traitUses := members.traitUses ++ [span] }
  | .method method => { members with
      fields := members.fields ++ (Recorded.method method).fields source
      methods := members.methods ++ [method]
      constructor := members.constructor.or (method.constructor? source)
      factory := members.factory.or (method.factory? source) }
  | .field field => { members with fields := members.fields ++ [field] }

namespace Members

/-- The lines of the members of a class: its trait uses, its methods and the statements that
declare its properties. -/
def spans (source : Source) (members : Members) : List LineSpan :=
  members.traitUses ++ (members.methods.map (·.span) ++
    (members.fields.filter (!·.promoted)).map fun field =>
      ⟨field.line, source.lineOfFirst field.line ';'⟩)

theorem mem_spans {members : Members} {span : LineSpan} : span ∈ members.spans source ↔
    span ∈ members.traitUses ∨ (∃ method ∈ members.methods, method.span = span) ∨
      ∃ field ∈ members.fields, field.promoted = false ∧
        ⟨field.line, source.lineOfFirst field.line ';'⟩ = span := by
  simp [spans, and_assoc]

end Members

/-- Whether something that starts on line `k` and is no recorded member takes line `n` from
the walk: a comment at the start of the line, an attribute with nothing behind it, or a
constant on a line above. -/
def Source.Hides (source : Source) (limit k n : Nat) : Prop :=
  startsWith "/*" (trimStart (source.raw k)) = true ∧ n ≤ MemberScan.commentEnd source k limit ∨
    (∃ last ∈ MemberScan.attributeEnd source k, n ≤ last) ∨
    k < n ∧ isConstant (source.code k) = true ∧ n ≤ source.lineOfFirst k ';'

instance (source : Source) (limit k n : Nat) : Decidable (source.Hides limit k n) :=
  inferInstanceAs (Decidable (_ ∨ _ ∨ _))

/-- Whether a doc comment stands on lines in front of line `limit`. -/
structure LineSpan.Documents (source : Source) (limit : Nat) (span : LineSpan) : Prop where
  first_le : span.first ≤ span.last
  last_lt : span.last < limit
  opens : startsWith "/**" (trimStart (source.raw span.first)) = true

theorem LineSpan.Documents.mono {limit limit' : Nat} {span : LineSpan}
    (h : span.Documents source limit) (hle : limit ≤ limit') : span.Documents source limit' :=
  ⟨h.first_le, Nat.lt_of_lt_of_le h.last_lt hle, h.opens⟩

namespace MemberScan

variable {limit : Nat} {scan scan' : MemberScan}

/-! ### Reading a line -/

theorem le_commentEnd (source : Source) (n limit : Nat) : n ≤ commentEnd source n limit := by
  simp only [commentEnd]
  generalize hfound : (Source.span n (limit - 1)).find? _ = found
  cases found with
  | none => exact Nat.le_refl n
  | some l => exact (Source.mem_span.mp (mem_of_find?_eq_some hfound)).1

theorem le_traitUseEnd (source : Source) (n : Nat) : n ≤ traitUseEnd source n := by
  unfold traitUseEnd
  split
  · exact Nat.le_refl n
  · rename_i glyph hfirst
    have hle : n ≤ glyph.spot.line := Source.line_le_of_not_before (Source.firstOf_spec hfirst).2.1
    split
    · exact hle
    · split
      · rename_i close hclose
        exact Nat.le_trans hle (Source.line_le_of_not_before (Source.matchingClose_spec hclose).2)
      · exact hle

theorem le_attributeEnd {last : Nat} (h : attributeEnd source n = some last) : n ≤ last := by
  simp only [attributeEnd, guard, Option.bind_eq_bind, Option.bind_eq_some_iff] at h
  obtain ⟨_, -, close, hclose, _, -, hlast⟩ := h
  cases hlast
  exact Source.line_le_of_not_before (Source.matchingClose_spec hclose).2

theorem le_methodEnd (source : Source) (n : Nat) (head : MethodHead) :
    n ≤ source.methodEnd n head := by
  unfold Source.methodEnd
  split
  · rename_i hlayout
    obtain ⟨-, hclose, hopen, hbody, -⟩ := MethodLayout.spec hlayout
    exact Nat.le_trans hclose (Nat.le_trans hopen hbody)
  · exact Source.le_lineOfFirst source n ';'

/-- What the walk does with a line that it reads: it passes the line and those that
something on it hides, and takes the waiting doc comment away, leaves it or starts a new
one; or it records the member that starts on the line and goes on behind it. -/
inductive Reading (source : Source) (limit n : Nat) (scan : MemberScan) : MemberScan → Prop
  | passes {scan' : MemberScan} (hmembers : scan'.members = scan.members)
      (hresume : n < scan'.resume)
      (hdoc : ∀ span ∈ scan'.doc, scan.doc = some span ∨
        span.first = n ∧ span.Documents source scan'.resume)
      (hhides : ∀ m, n < m → m < scan'.resume → source.Hides limit n m)
      (hdepth : scan'.depth = scan.depth ∧ scan.depth ≤ 0 ∨
        scan'.depth = scan.depth + source.braceBalance n ∧ scan'.resume = n + 1) :
      Reading source limit n scan scan'
  | records {entry : Recorded} (hentry : entry.ReadOn source n scan.doc)
      (hcode : source.code n ≠ []) (hshown : ¬ source.Hides limit n n) (hdepth : scan.depth ≤ 0) :
      Reading source limit n scan
        { scan with
          members := scan.members.record source entry
          doc := none
          resume := (entry.span source).last + 1 }

theorem readMethod_eq (scan : MemberScan) {head : MethodHead}
    (hhead : MethodHead.of? (source.code n) = some head) :
    readMethod source scan n head = { scan with
      members := scan.members.record source
        (.method ⟨head.name, ⟨n, source.methodEnd n head⟩, scan.doc, head.isStatic⟩)
      doc := none
      resume := source.methodEnd n head + 1 } := by
  have hcreate : sameName "create" "__construct" = false := by decide
  unfold readMethod
  cases hlayout : MethodLayout.at? source ⟨n, head.paren⟩ with
  | none =>
    simp [Members.record, Recorded.fields, Method.constructor?, Method.factory?, Method.layout?, Source.methodEnd,
      hhead, hlayout]
  | some layout =>
    have hparams : layout.paramsOpen.line = n := congrArg Spot.line (MethodLayout.spec hlayout).1
    simp only [addMethod, Members.record, Recorded.fields, Method.constructor?, Method.factory?, Method.layout?,
      Source.methodEnd, hhead, hlayout, hparams, Option.bind_some, Option.map_some]
    split
    · rename_i hname
      have hother : (head.name == "create") = false := by
        refine beq_eq_false_iff_ne.mpr fun heq => ?_
        rw [heq, hcreate] at hname
        cases hname
      simp [hother]
    · split <;> simp [*]

theorem readMember_reading (scan : MemberScan) (hdepth : scan.depth ≤ 0)
    (hcode : source.code n ≠ []) (hshown : ¬ source.Hides limit n n) :
    Reading source limit n scan (readMember source scan n) := by
  simp only [readMember]
  split
  · exact .records .traitUse hcode hshown hdepth
  · split
    · rename_i hhead
      rw [readMethod_eq scan hhead]
      exact .records (.method hhead) hcode hshown hdepth
    · split
      · rename_i hconstant
        exact .passes rfl (Nat.lt_succ_of_le (Source.le_lineOfFirst source n ';')) nofun
          (fun m hlt hle => .inr (.inr ⟨hlt, hconstant, Nat.le_of_lt_succ hle⟩)) (.inl ⟨rfl, hdepth⟩)
      · rename_i hconstant
        split
        · rename_i hdecl
          exact .records (.field hdecl (Bool.eq_false_iff.mpr hconstant)) hcode hshown hdepth
        · exact .passes rfl (Nat.lt_succ_self n) nofun
            (fun m hlt hle => absurd hlt (Nat.not_lt_of_le (Nat.le_of_lt_succ hle))) (.inr ⟨rfl, rfl⟩)

theorem step_of_lt (limit : Nat) (h : n < scan.resume) : step source limit scan n = scan := by
  rw [step, if_pos h]

/-- What the walk does with a line that it reads. -/
theorem step_reading (source : Source) (limit : Nat) (hresume : scan.resume ≤ n) :
    Reading source limit n scan (step source limit scan n) := by
  have hnext : ∀ m, n < m → m < n + 1 → source.Hides limit n m := fun m hlt hle => by omega
  simp only [step, if_neg (Nat.not_lt.mpr hresume)]
  split
  · exact .passes rfl (Nat.lt_succ_self n) (fun _ => .inl) hnext (.inr ⟨rfl, rfl⟩)
  · rename_i hdepth
    have hdepth : scan.depth ≤ 0 := Int.not_lt.mp hdepth
    split
    · rename_i hcomment
      have hle := le_commentEnd source n limit
      refine .passes rfl (Nat.lt_succ_of_le hle) (fun span hspan => .inr ?_)
        (fun m _ hle => .inl ⟨hcomment, Nat.le_of_lt_succ hle⟩) (.inl ⟨rfl, hdepth⟩)
      obtain ⟨hopens, hspan⟩ := Option.ite_none_right_eq_some.mp hspan
      cases hspan
      exact ⟨rfl, hle, Nat.lt_succ_self _, hopens⟩
    · rename_i hcomment
      split
      · rename_i last hattribute
        exact .passes rfl (Nat.lt_succ_of_le (le_attributeEnd hattribute)) (fun _ => .inl)
          (fun m _ hle => .inr (.inl ⟨last, hattribute, Nat.le_of_lt_succ hle⟩)) (.inl ⟨rfl, hdepth⟩)
      · rename_i hattribute
        split
        · exact .passes rfl (Nat.lt_succ_self n) (fun _ => .inl) hnext (.inl ⟨rfl, hdepth⟩)
        · rename_i hblank
          refine readMember_reading scan hdepth (fun hnil => hblank (by rw [hnil]; rfl)) ?_
          rintro (⟨hstarts, -⟩ | ⟨last, hlast, -⟩ | ⟨hlt, -⟩)
          · exact hcomment hstarts
          · rw [hattribute] at hlast
            cases hlast
          · exact absurd hlt (Nat.lt_irrefl n)

/-- What each line that is read preserves holds behind the walk. -/
theorem foldl_induct {motive : MemberScan → Prop} (numbers : List Nat) (h : motive scan)
    (hread : ∀ {scan scan' : MemberScan}, motive scan → ∀ n ∈ numbers, scan.resume ≤ n →
      Reading source limit n scan scan' → motive scan') :
    motive (numbers.foldl (step source limit) scan) := by
  refine foldlRecOn numbers _ h fun scan h n hn => ?_
  by_cases hresume : scan.resume ≤ n
  · exact hread h n hn hresume (step_reading source limit hresume)
  · rwa [step_of_lt limit (Nat.lt_of_not_le hresume)]

end MemberScan

/-! ### The order of the members -/

/-- What is known of a member of a body behind line `brace` and in front of line `limit`. -/
structure Recorded.Stands (source : Source) (brace limit : Nat) (entry : Recorded) : Prop where
  read : entry.ReadOn source (entry.span source).first entry.doc
  code_ne : source.code (entry.span source).first ≠ []
  first_le : (entry.span source).first ≤ (entry.span source).last
  brace_lt : brace < (entry.span source).first
  lt_limit : (entry.span source).first < limit
  doc : ∀ span ∈ entry.doc, brace < span.first ∧ span.Documents source (entry.span source).first

/-- Whether a member ends in front of another one and its doc comment. -/
def Recorded.Before (source : Source) (a b : Recorded) : Prop :=
  (a.span source).last < b.leadingLine source

namespace Recorded

variable {brace limit : Nat} {entry other : Recorded} {doc : Option LineSpan}

theorem ReadOn.spec (h : entry.ReadOn source n doc) : (entry.span source).first = n ∧
    n ≤ (entry.span source).last ∧ entry.ReadOn source n entry.doc ∧
      ∀ span ∈ entry.doc, doc = some span := by
  cases h with
  | traitUse => exact ⟨rfl, MemberScan.le_traitUseEnd source n, .traitUse, nofun⟩
  | method hhead => exact ⟨rfl, MemberScan.le_methodEnd source n _, .method hhead, fun _ h => h⟩
  | field hdecl hconstant =>
    exact ⟨rfl, Source.le_lineOfFirst source n ';', .field hdecl hconstant, fun _ h => h⟩

theorem ReadOn.of_field {field : Field} (h : ReadOn source n doc (.field field)) :
    ∃ decl, propertyDecl (source.code n) = some decl ∧ isConstant (source.code n) = false ∧
      field = ⟨String.ofList decl.name, n, decl.typeHint.map String.ofList, doc, false⟩ := by
  cases h with
  | field hdecl hconstant => exact ⟨_, hdecl, hconstant, rfl⟩

/-- The lines of a method with a body. -/
theorem ReadOn.span_of_layout? {method : Method} (h : ReadOn source n doc (.method method))
    (hlayout : method.layout? source = some layout) : layout.paramsOpen.line = n ∧
      method.span = ⟨layout.paramsOpen.line, layout.bodyClose.line⟩ ∧
      ∃ head, MethodHead.of? (source.code n) = some head ∧
        MethodLayout.at? source ⟨n, head.paren⟩ = some layout := by
  cases h with
  | @method head hhead =>
    rw [Method.layout?, hhead, Option.bind_some] at hlayout
    have hline := congrArg Spot.line (MethodLayout.spec hlayout).1
    exact ⟨hline, by simp [Source.methodEnd, hlayout, hline], head, hhead, hlayout⟩

theorem Stands.leading (h : entry.Stands source brace limit) :
    brace < entry.leadingLine source ∧ entry.leadingLine source ≤ (entry.span source).first ∧
      source.raw (entry.leadingLine source) ≠ [] := by
  rw [leadingLine]
  cases hdoc : entry.doc with
  | none => exact ⟨h.brace_lt, Nat.le_refl _, Source.raw_ne_nil_of_code h.code_ne⟩
  | some span =>
    obtain ⟨hbrace, hle, hlt, hopens⟩ := h.doc span hdoc
    exact ⟨hbrace, Nat.le_of_lt (Nat.lt_of_le_of_lt hle hlt),
      fun hnil : source.raw span.first = [] => by simp [hnil, trimStart, startsWith] at hopens⟩

theorem Before.last_lt (h : entry.Before source other) (hother : other.Stands source brace limit) :
    (entry.span source).last < (other.span source).first :=
  Nat.lt_of_lt_of_le h hother.leading.2.1

end Recorded

/-- Whether members are recorded one after the other, in the order of their lines. -/
structure Members.Lists (source : Source) (brace limit : Nat) (members : Members)
    (entries : List Recorded) : Prop where
  eq : members = entries.foldl (·.record source) {}
  sorted : entries.Pairwise (Recorded.Before source)
  stands : ∀ entry ∈ entries, entry.Stands source brace limit

/-- What holds in front of each line of a body: the members read so far stand in front of the
lines not yet read, and so does the waiting doc comment, behind the members. -/
structure MemberScan.Recording (source : Source) (brace limit : Nat) (entries : List Recorded)
    (scan : MemberScan) : Prop where
  lists : scan.members.Lists source brace limit entries
  ended : ∀ entry ∈ entries, (entry.span source).last < scan.resume
  doc : ∀ span ∈ scan.doc, brace < span.first ∧ span.Documents source scan.resume ∧
    ∀ entry ∈ entries, (entry.span source).last < span.first

theorem MemberScan.Recording.read {brace limit : Nat} {entries : List Recorded}
    {scan scan' : MemberScan} (h : Recording source brace limit entries scan) (hbrace : brace < n)
    (hlimit : n < limit) (hresume : scan.resume ≤ n)
    (hreading : Reading source limit n scan scan') :
    ∃ entries', Recording source brace limit entries' scan' := by
  have hended : ∀ entry ∈ entries, (entry.span source).last < n := fun entry hentry =>
    Nat.lt_of_lt_of_le (h.ended entry hentry) hresume
  cases hreading with
  | passes hmembers hbehind hdoc =>
    refine ⟨entries, hmembers ▸ h.lists, fun entry hentry => ?_, fun span hspan => ?_⟩
    · exact Nat.lt_trans (hended entry hentry) hbehind
    · rcases hdoc span hspan with hold | ⟨rfl, hdocuments⟩
      · obtain ⟨hlt, hdocuments, hafter⟩ := h.doc span hold
        exact ⟨hlt, hdocuments.mono (by omega), hafter⟩
      · exact ⟨hbrace, hdocuments, hended⟩
  | @records entry hentry hcode =>
    obtain ⟨rfl, hle, hread, hdoc⟩ := hentry.spec
    have hstands : entry.Stands source brace limit :=
      ⟨hread, hcode, hle, hbrace, hlimit, fun span hspan => by
        obtain ⟨hlt, hdocuments, -⟩ := h.doc span (hdoc span hspan)
        exact ⟨hlt, hdocuments.mono hresume⟩⟩
    have hbefore : ∀ other ∈ entries, other.Before source entry := by
      intro other hother
      rw [Recorded.Before, Recorded.leadingLine]
      cases hspan : entry.doc with
      | none => exact hended other hother
      | some span => exact (h.doc span (hdoc span hspan)).2.2 other hother
    refine ⟨entries ++ [entry], ⟨?_, ?_, ?_⟩, ?_, nofun⟩
    · rw [h.lists.eq, foldl_append]
      rfl
    · exact pairwise_append.mpr ⟨h.lists.sorted, pairwise_singleton _ _,
        fun other hother _ hmem => mem_singleton.mp hmem ▸ hbefore other hother⟩
    · exact forall_mem_append.mpr ⟨h.lists.stands, forall_mem_singleton.mpr hstands⟩
    · refine forall_mem_append.mpr ⟨fun other hother => ?_, ?_⟩
      · exact Nat.lt_succ_of_le (Nat.le_trans (Nat.le_of_lt (hended other hother)) hle)
      · exact forall_mem_singleton.mpr (Nat.lt_succ_self _)

/-- The members of a body are recorded in the order of their lines. -/
theorem Members.exists_lists_ofBody (source : Source) (openLine closeLine : Nat) :
    ∃ entries, (Members.ofBody source openLine closeLine).Lists source openLine closeLine entries := by
  have hstart : MemberScan.Recording source openLine closeLine [] {} :=
    ⟨⟨rfl, .nil, nofun⟩, nofun, nofun⟩
  obtain ⟨entries, hrecording⟩ := MemberScan.foldl_induct (motive := fun scan =>
      ∃ entries, MemberScan.Recording source openLine closeLine entries scan)
    (Source.span (openLine + 1) (closeLine - 1)) ⟨[], hstart⟩ fun ⟨_, h⟩ n hn hresume hreading =>
      have hn := Source.mem_span.mp hn
      h.read (by omega) (by omega) hresume hreading
  exact ⟨entries, hrecording.lists⟩

namespace Members.Lists

variable {brace limit : Nat} {members : Members} {entries : List Recorded}

/-- The lists of members, and the first constructor and the first factory among the methods. -/
theorem spec (h : members.Lists source brace limit entries) :
    members.traitUses = entries.filterMap (·.traitUse?) ∧
      members.methods = entries.filterMap (·.method?) ∧
      members.fields = entries.flatMap (·.fields source) ∧
      members.constructor = members.methods.findSome? (·.constructor? source) ∧
      members.factory = members.methods.findSome? (·.factory? source) := by
  rw [h.eq]
  clear h
  induction entries using reverseRecOn with
  | nil => simp
  | append_singleton entries entry ih =>
    obtain ⟨huses, hmethods, hfields, hctor, hfactory⟩ := ih
    rw [foldl_append, foldl_cons, foldl_nil]
    cases entry <;> simp [Members.record, Recorded.traitUse?, Recorded.method?, Recorded.fields,
      findSome?_append, huses, hmethods, hfields, hctor, hfactory]

theorem mem_traitUses (h : members.Lists source brace limit entries) {span : LineSpan} :
    span ∈ members.traitUses ↔ .traitUse span ∈ entries := by
  rw [h.spec.1, mem_filterMap]
  refine ⟨?_, fun hmem => ⟨_, hmem, rfl⟩⟩
  rintro ⟨_ | _ | _, hmem, ⟨⟩⟩
  exact hmem

theorem mem_methods (h : members.Lists source brace limit entries) {method : Method} :
    method ∈ members.methods ↔ .method method ∈ entries := by
  rw [h.spec.2.1, mem_filterMap]
  refine ⟨?_, fun hmem => ⟨_, hmem, rfl⟩⟩
  rintro ⟨_ | _ | _, hmem, ⟨⟩⟩
  exact hmem

/-- A property that is not promoted is a member of its own. -/
theorem mem_fields (h : members.Lists source brace limit entries) {field : Field} :
    field ∈ members.fields ∧ field.promoted = false ↔ .field field ∈ entries := by
  rw [h.spec.2.2.1, mem_flatMap]
  constructor
  · rintro ⟨⟨_ | method | _, hmem, hfield⟩, hpromoted⟩
    · cases hfield
    · obtain ⟨ctor, -, hfield⟩ := mem_flatMap.mp hfield
      obtain ⟨param, -, rfl⟩ := mem_map.mp hfield
      cases hpromoted
    · exact mem_singleton.mp hfield ▸ hmem
  · intro hmem
    refine ⟨⟨_, hmem, mem_singleton.mpr rfl⟩, ?_⟩
    obtain ⟨decl, -, -, heq⟩ := (h.stands _ hmem).read.of_field
    rw [heq]

theorem mem_spans (h : members.Lists source brace limit entries) {span : LineSpan} :
    span ∈ members.spans source ↔ ∃ entry ∈ entries, entry.span source = span := by
  rw [Members.mem_spans, h.mem_traitUses]
  simp only [h.mem_methods, ← and_assoc, h.mem_fields]
  constructor
  · rintro (hmem | ⟨method, hmem, rfl⟩ | ⟨field, hmem, rfl⟩) <;> exact ⟨_, hmem, rfl⟩
  · rintro ⟨span | method | field, hmem, rfl⟩
    · exact .inl hmem
    · exact .inr (.inl ⟨method, hmem, rfl⟩)
    · exact .inr (.inr ⟨field, hmem, rfl⟩)

/-- A wiring method is read from the layout of a method. -/
theorem exists_layout {α : Type} {test : Method → Bool} {build : MethodLayout → Option LineSpan → α}
    (h : members.Lists source brace limit entries) {wiring : α}
    (hwiring : (members.methods.findSome? fun method =>
      if test method then (method.layout? source).map (build · method.doc) else none) = some wiring) :
    ∃ method layout, .method method ∈ entries ∧ test method = true ∧ layout.Starts source ∧
      method.span = ⟨layout.paramsOpen.line, layout.bodyClose.line⟩ ∧
      wiring = build layout method.doc := by
  obtain ⟨method, hmethod, hsome⟩ := exists_of_findSome?_eq_some hwiring
  have hmem := h.mem_methods.mp hmethod
  split at hsome
  · rename_i htest
    obtain ⟨layout, hlayout, rfl⟩ := Option.map_eq_some_iff.mp hsome
    obtain ⟨-, hspan, hstarts⟩ := (h.stands _ hmem).read.span_of_layout? hlayout
    exact ⟨method, layout, hmem, htest, ⟨_, hstarts⟩, hspan, rfl⟩
  · cases hsome

theorem of_constructor (h : members.Lists source brace limit entries) {ctor : Constructor}
    (hctor : members.constructor = some ctor) :
    ∃ method layout, .method method ∈ entries ∧ sameName method.name "__construct" = true ∧
      layout.Starts source ∧ method.span = ⟨layout.paramsOpen.line, layout.bodyClose.line⟩ ∧
      ctor = Constructor.ofLayout source layout method.doc :=
  h.exists_layout (h.spec.2.2.2.1.symm.trans hctor)

theorem of_factory (h : members.Lists source brace limit entries) {factory : Factory}
    (hfactory : members.factory = some factory) :
    ∃ method layout, .method method ∈ entries ∧
      (method.name == "create" && method.isStatic) = true ∧ layout.Starts source ∧
      method.span = ⟨layout.paramsOpen.line, layout.bodyClose.line⟩ ∧
      factory = Factory.ofLayout source layout method.doc :=
  h.exists_layout (h.spec.2.2.2.2.symm.trans hfactory)

/-- Of two members, one ends in front of the other and its doc comment. -/
theorem before_or_before (h : members.Lists source brace limit entries) {a b : Recorded}
    (ha : a ∈ entries) (hb : b ∈ entries) (hne : a ≠ b) :
    a.Before source b ∨ b.Before source a := by
  have : Std.Symm fun a b : Recorded => a.Before source b ∨ b.Before source a := ⟨fun _ _ => Or.symm⟩
  exact (h.sorted.imp Or.inl : entries.Pairwise fun a b => _ ∨ b.Before source a).forall ha hb hne

end Members.Lists

/-! ### The class -/

/-- Whether a doc comment in front of line `first` stands behind all members above that line. -/
def Members.Owns (source : Source) (members : Members) (first : Nat) (doc : LineSpan) : Prop :=
  doc.first ≤ doc.last ∧ doc.last < first ∧
    ∀ span ∈ members.spans source, span.first < first → span.last < doc.first

/-- Members in order between two lines: the trait uses and the methods take lines of their own, in
the order of their lists, and no property stands among them; each doc comment stands between its
member and the members above; and the constructor and the factory are the first methods with a
body and the right name. -/
structure Members.Arranged (source : Source) (openLine closeLine : Nat) (members : Members) :
    Prop where
  traitUses : members.traitUses.Pairwise (·.last < ·.first)
  methods : members.methods.Pairwise (·.span.last < ·.span.first)
  apart : ∀ span ∈ members.traitUses, ∀ method ∈ members.methods,
    span.last < method.span.first ∨ method.span.last < span.first
  within : ∀ span ∈ members.traitUses ++ members.methods.map (·.span),
    openLine < span.first ∧ span.first < closeLine ∧ span.first ≤ span.last
  fields : ∀ field ∈ members.fields, field.promoted = false →
    ∀ span ∈ members.traitUses ++ members.methods.map (·.span), span.contains field.line = false
  methodDocs : ∀ method ∈ members.methods, ∀ doc ∈ method.doc,
    members.Owns source method.span.first doc
  fieldDocs : ∀ field ∈ members.fields, ∀ doc ∈ field.doc, members.Owns source field.line doc
  constructor : members.constructor.map (fun ctor => (ctor.startLine, ctor.endLine, ctor.doc)) =
    (members.methods.find? fun method =>
      sameName method.name "__construct" && (method.layout? source).isSome).map
        fun method => (method.span.first, method.span.last, method.doc)
  factory : members.factory.map (fun factory => (factory.startLine, factory.endLine, factory.doc)) =
    (members.methods.find? fun method =>
      method.name == "create" && method.isStatic && (method.layout? source).isSome).map
        fun method => (method.span.first, method.span.last, method.doc)

namespace Members.Lists

variable {openLine closeLine : Nat} {members : Members} {entries : List Recorded}

theorem owns (h : members.Lists source openLine closeLine entries) {entry : Recorded}
    (hentry : entry ∈ entries) {doc : LineSpan} (hdoc : doc ∈ entry.doc) :
    members.Owns source (entry.span source).first doc := by
  have hstands := h.stands entry hentry
  obtain ⟨-, hle, hlt, -⟩ := hstands.doc doc hdoc
  refine ⟨hle, hlt, fun span hspan hfirst => ?_⟩
  obtain ⟨other, hother, rfl⟩ := h.mem_spans.mp hspan
  rcases h.before_or_before hother hentry (by rintro rfl; exact Nat.lt_irrefl _ hfirst) with
    hbefore | hbefore
  · rwa [Recorded.Before, Recorded.leadingLine, Option.mem_def.mp hdoc] at hbefore
  · have := hbefore.last_lt (h.stands other hother)
    have := hstands.first_le
    omega

/-- What is kept of the first method with a body that passes a test has its lines and its doc
comment. -/
theorem map_findSome? {α : Type} {test : Method → Bool}
    {build : MethodLayout → Option LineSpan → α} {lines : α → Nat × Nat × Option LineSpan}
    (hbuild : ∀ layout doc,
      lines (build layout doc) = (layout.paramsOpen.line, layout.bodyClose.line, doc))
    {methods : List Method} (h : ∀ method ∈ methods, ∃ n,
      Recorded.ReadOn source n method.doc (.method method)) :
    (methods.findSome? fun method =>
        if test method then (method.layout? source).map (build · method.doc) else none).map lines =
      (methods.find? fun method => test method && (method.layout? source).isSome).map
        fun method => (method.span.first, method.span.last, method.doc) := by
  induction methods with
  | nil => rfl
  | cons method methods ih =>
    obtain ⟨⟨n, hread⟩, hrest⟩ := forall_mem_cons.mp h
    rw [findSome?_cons, find?_cons]
    cases htest : test method with
    | false => simpa using ih hrest
    | true =>
      cases hlayout : method.layout? source with
      | none => simpa using ih hrest
      | some layout => simp [hbuild, (hread.span_of_layout? hlayout).2.1]

theorem toArranged (h : members.Lists source openLine closeLine entries) :
    members.Arranged source openLine closeLine := by
  have hsorted : entries.Pairwise fun a b => (a.span source).last < (b.span source).first :=
    h.sorted.imp_of_mem fun _ hb hbefore => hbefore.last_lt (h.stands _ hb)
  have hspan : ∀ span ∈ members.traitUses ++ members.methods.map (·.span),
      ∃ entry ∈ entries, entry.span source = span ∧ ∀ field, entry ≠ .field field := by
    intro span hspan
    rcases mem_append.mp hspan with hmem | hmem
    · exact ⟨_, h.mem_traitUses.mp hmem, rfl, nofun⟩
    · obtain ⟨method, hmethod, rfl⟩ := mem_map.mp hmem
      exact ⟨_, h.mem_methods.mp hmethod, rfl, nofun⟩
  have hapart : ∀ {a b : Recorded}, a ∈ entries → b ∈ entries → a ≠ b →
      (a.span source).last < (b.span source).first ∨ (b.span source).last < (a.span source).first :=
    fun ha hb hne => (h.before_or_before ha hb hne).imp (·.last_lt (h.stands _ hb))
      (·.last_lt (h.stands _ ha))
  have hread : ∀ method ∈ members.methods, ∃ n,
      Recorded.ReadOn source n method.doc (.method method) :=
    fun method hmethod => ⟨_, (h.stands _ (h.mem_methods.mp hmethod)).read⟩
  obtain ⟨huses, hmethods, hfields, hctor, hfactory⟩ := h.spec
  refine ⟨?_, ?_, fun span hmem method hmethod => ?_, fun span hmem => ?_,
    fun field hfield hpromoted span hmem => ?_, fun method hmethod doc hdoc => ?_,
    fun field hfield doc hdoc => ?_, ?_, ?_⟩
  · rw [huses]
    refine pairwise_filterMap.mpr (hsorted.imp ?_)
    rintro (_ | _ | _) (_ | _ | _) hlt use ⟨⟩ use' ⟨⟩
    exact hlt
  · rw [hmethods]
    refine pairwise_filterMap.mpr (hsorted.imp ?_)
    rintro (_ | _ | _) (_ | _ | _) hlt method ⟨⟩ method' ⟨⟩
    exact hlt
  · exact hapart (h.mem_traitUses.mp hmem) (h.mem_methods.mp hmethod) nofun
  · obtain ⟨entry, hentry, rfl, -⟩ := hspan span hmem
    have hstands := h.stands entry hentry
    exact ⟨hstands.brace_lt, hstands.lt_limit, hstands.first_le⟩
  · obtain ⟨entry, hentry, rfl, hne⟩ := hspan span hmem
    have hown := h.mem_fields.mp ⟨hfield, hpromoted⟩
    have hline : (entry.span source).last < field.line ∨
        source.lineOfFirst field.line ';' < (entry.span source).first :=
      hapart hentry hown (hne field)
    have hle := Source.le_lineOfFirst source field.line ';'
    rw [LineSpan.contains, Bool.and_eq_false_iff, decide_eq_false_iff_not, decide_eq_false_iff_not]
    omega
  · exact h.owns (h.mem_methods.mp hmethod) hdoc
  · rw [hfields] at hfield
    obtain ⟨_ | method | _, hentry, hfield⟩ := mem_flatMap.mp hfield
    · cases hfield
    · obtain ⟨ctor, -, hfield⟩ := mem_flatMap.mp hfield
      obtain ⟨param, -, rfl⟩ := mem_map.mp hfield
      cases hdoc
    · obtain rfl := mem_singleton.mp hfield
      exact h.owns hentry hdoc
  · rw [hctor]
    exact map_findSome? (fun _ _ => rfl) hread
  · rw [hfactory]
    exact map_findSome? (fun _ _ => rfl) hread

end Members.Lists

/-- What a declaration on line `n` consists of. -/
theorem Outline.of_ofDeclaration {outline : Outline}
    (h : Outline.ofDeclaration source n = some outline) :
    ∃ head opening close, Head.of? (source.code n) = some head ∧
      source.firstOf ⟨n, head.stop⟩ ['{', ';'] = some opening ∧ opening.char = '{' ∧
      source.matchingClose opening.spot '{' '}' = some close ∧
      outline.decl.kind = head.kind ∧ outline.decl.name = head.name ∧
      outline.decl.line = n ∧
      outline.decl.openBraceLine = opening.spot.line ∧ outline.decl.closeBraceLine = close.line ∧
      outline.toMembers = if opening.spot.line == close.line then {}
        else Members.ofBody source opening.spot.line close.line := by
  simp only [Outline.ofDeclaration, bind, Option.bind_eq_some_iff] at h
  obtain ⟨head, hhead, opening, hopening, _, hguard, close, hclose, hsome⟩ := h
  cases hsome
  refine ⟨head, opening, close, hhead, hopening, ?_, hclose, rfl, rfl, rfl, rfl, rfl, rfl⟩
  simpa [guard] using hguard

theorem Outline.exists_lists {outline : Outline} (h : Outline.ofDeclaration source n = some outline) :
    ∃ entries, outline.toMembers.Lists source outline.decl.openBraceLine
      outline.decl.closeBraceLine entries := by
  obtain ⟨head, opening, close, -, -, -, -, -, -, -, hopen, hclose, hmembers⟩ := of_ofDeclaration h
  rw [hopen, hclose, hmembers]
  split
  · exact ⟨[], rfl, .nil, nofun⟩
  · exact Members.exists_lists_ofBody source _ _

/-- **Members in order.** The members that are found of a class are in order between its braces. -/
theorem Outline.members_arranged {outline : Outline}
    (h : Outline.ofDeclaration source n = some outline) :
    outline.toMembers.Arranged source outline.decl.openBraceLine outline.decl.closeBraceLine := by
  obtain ⟨entries, hlists⟩ := exists_lists h
  exact hlists.toArranged

/-- A class with a trait use, a documented property and constructor, a method without a body and a
factory. -/
def documentedMembers : Source := .ofText <| "<?php\nclass Page \x7b\n  use T;\n  /** Doc. */\n" ++
  "  protected $a;\n  /** Doc. */\n  function __construct(\n  ) \x7b\n  \x7d\n  abstract function b();\n" ++
  "  static function create($c) \x7b\n  \x7d\n\x7d\n"

theorem arranged_documentedMembers :
    ∃ outline, Outline.ofDeclaration documentedMembers 1 = some outline ∧
      outline.traitUses.length = 1 ∧ outline.methods.length = 3 ∧
      (outline.constructor.bind (·.doc)).isSome ∧ outline.factory.isSome ∧
      outline.toMembers.Arranged documentedMembers outline.decl.openBraceLine
        outline.decl.closeBraceLine := by
  have hread : ∃ outline ∈ Outline.ofDeclaration documentedMembers 1,
      outline.traitUses.length = 1 ∧ outline.methods.length = 3 ∧
        (outline.constructor.bind (·.doc)).isSome ∧ outline.factory.isSome := by
    decide +kernel
  obtain ⟨outline, houtline, huses, hmethods, hctor, hfactory⟩ := hread
  exact ⟨outline, houtline, huses, hmethods, hctor, hfactory, Outline.members_arranged houtline⟩

end ServiceInjection

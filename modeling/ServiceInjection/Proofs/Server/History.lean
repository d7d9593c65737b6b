import ServiceInjection.Server.Session

/-!
# Server.History

Sessions over time. Settings, directory and parents are kept side by side and belong
together in every state that a server can come to (`Session.Consistent`). The documents
that it holds are those of its history: the text of a document is the one that the last
operation about it left (`latestText`). Both are facts about one operation first
(`Consistent.perform`, `document?_perform`), then about whatever may happen to a server
(`Event`), and about whole runs last (`run_consistent_document?`).
-/

namespace ServiceInjection

open Server

namespace Session

variable {session : Session}

/-! ### Settings and documents -/

theorem directory_default : ({} : Settings).directory = .builtin := by
  simp [Settings.directory, Settings.orderedServices, Directory.insertAll]

/-- Whether directory and parents are those of the settings. -/
structure Consistent (session : Session) : Prop where
  directory : session.directory = session.settings.directory
  parents : session.parents = session.settings.baseClassRoles

/-- Loading a workspace takes settings over, whatever files there are, and new services;
all else stays. -/
theorem loadWorkspace_spec (files : Files Id) (session : Session) :
    ∃ settings registry, (session.loadWorkspace files : Nat × Session).2 =
      { session.configure settings with registry } := by
  unfold loadWorkspace
  cases hroot : session.root with
  | none => exact ⟨Settings.load files none, session.registry, by simp [configure, hroot]; rfl⟩
  | some root => exact ⟨Settings.load files (some root), _, by simp [configure, hroot]; rfl⟩

theorem consistent_loadWorkspace (files : Files Id) (session : Session) :
    Consistent (session.loadWorkspace files : Nat × Session).2 := by
  obtain ⟨settings, registry, heq⟩ := loadWorkspace_spec files session
  rw [heq]
  exact ⟨rfl, rfl⟩

theorem document?_loadWorkspace (files : Files Id) (session : Session) (uri : Uri) :
    Session.document? (session.loadWorkspace files : Nat × Session).2 uri =
      session.document? uri := by
  obtain ⟨settings, registry, heq⟩ := loadWorkspace_spec files session
  rw [heq]
  rfl

theorem lookup_filter_ne {key other : String} (documents : List (String × String)) :
    (documents.filter (·.1 != other)).lookup key =
      if key = other then none else documents.lookup key := by
  induction documents with
  | nil => simp
  | cons entry rest ih =>
    by_cases hother : entry.1 = other
    · rw [List.filter_cons_of_neg (by simp [hother]), ih]
      split
      · rfl
      · next hne =>
          rw [List.lookup_cons, show (key == entry.1) = false by simp [hother, hne]]
    · rw [List.filter_cons_of_pos (by simp [hother]), List.lookup_cons, ih, List.lookup_cons]
      cases hkey : key == entry.1 with
      | true =>
        have hne : key ≠ other := beq_iff_eq.mp hkey ▸ hother
        exact (if_neg hne).symm
      | false => rfl

theorem document?_setDocument (session : Session) (uri other : Uri) (text : String) :
    (session.setDocument uri text).document? other =
      if other.text = uri.text then some text else session.document? other := by
  rw [document?, setDocument, List.lookup_cons, lookup_filter_ne, document?]
  cases h : other.text == uri.text with
  | true => exact (if_pos (beq_iff_eq.mp h)).symm
  | false =>
    have hne : other.text ≠ uri.text := beq_eq_false_iff_ne.mp h
    exact (if_neg hne).trans (if_neg hne).symm

theorem document?_closeDocument (session : Session) (uri other : Uri) :
    (session.closeDocument uri).document? other =
      if other.text = uri.text then none else session.document? other := by
  rw [document?, closeDocument, lookup_filter_ne, document?]

/-- Offering an action changes nothing. -/
theorem session_offerAction (session : Session) (params : ActionParams) :
    (session.offerAction params).session = session := by
  unfold offerAction
  split
  · dsimp only
    split <;> rfl
  · rfl

/-! ### One operation -/

/-- What an operation says about a document: its text, or that there is none. Nothing is
said by a change without texts, or by an operation about something else. -/
def Operation.about (uri : Uri) : Operation → Option (Option String)
  | .didOpen other text => if uri.text = other.text then some (some text) else none
  | .didChange other texts => if uri.text = other.text then texts.getLast?.map some else none
  | .didClose other => if uri.text = other.text then some none else none
  | _ => none

/-- An operation changes a document as it says, and leaves all others. -/
theorem document?_perform (files : Files Id) (operation : Operation) (uri : Uri) :
    Session.document? (session.perform files operation : Effect).session uri =
      (operation.about uri).getD (session.document? uri) := by
  cases operation with
  | enter rootUri => rfl
  | load => exact document?_loadWorkspace files session uri
  | didOpen other text =>
    refine (document?_setDocument session other uri text).trans ?_
    rw [Operation.about]
    split <;> rfl
  | didChange other texts =>
    simp only [perform, Operation.about]
    cases texts.getLast? with
    | none =>
      dsimp only [Option.map]
      split <;> rfl
    | some text =>
      refine (document?_setDocument session other uri text).trans ?_
      split <;> rfl
  | didClose other =>
    refine (document?_closeDocument session other uri).trans ?_
    rw [Operation.about]
    split <;> rfl
  | codeAction params =>
    exact congrArg (Session.document? · uri) (session_offerAction session params)

theorem Consistent.perform (h : session.Consistent) (files : Files Id) (operation : Operation) :
    Consistent (session.perform files operation : Effect).session := by
  cases operation with
  | enter rootUri => exact ⟨h.directory, h.parents⟩
  | load => exact consistent_loadWorkspace files session
  | didOpen uri text => exact ⟨h.directory, h.parents⟩
  | didChange uri texts =>
    simp only [Session.perform]
    cases texts.getLast? with
    | none => exact h
    | some text => exact ⟨h.directory, h.parents⟩
  | didClose uri => exact ⟨h.directory, h.parents⟩
  | codeAction params => exact (session_offerAction session params).symm ▸ h

/-! ### One message -/

/-- Whether a session is another one that may have come further or less far. -/
def SameBut (session other : Session) : Prop := ∃ phase, other = { session with phase }

theorem SameBut.refl (session : Session) : SameBut session session := ⟨session.phase, rfl⟩

theorem Consistent.of_sameBut {other : Session} (h : session.Consistent)
    (hsame : SameBut session other) : other.Consistent := by
  obtain ⟨phase, rfl⟩ := hsame
  exact ⟨h.directory, h.parents⟩

theorem document?_of_sameBut {other : Session} (h : SameBut session other) (uri : Uri) :
    other.document? uri = session.document? uri := by
  obtain ⟨phase, rfl⟩ := h
  rfl

/-- What is known of the verdict on a call: without an operation the phase changes at most,
and an operation is carried out in the phase of the session unless it starts it. -/
def Verdict.Sound (session : Session) : Verdict → Prop
  | .settled effect => SameBut session effect.session
  | .carryOut phase operation =>
    (∃ rootUri, operation = .enter rootUri) ∨ phase = session.phase

theorem sound_refuse (session : Session) (call : Call) (reason : CallError) :
    Verdict.Sound session (.settled (session.refuse call reason)) :=
  SameBut.refl session

theorem sound_notification (session : Session) (call : Call) (run : Json → Option Operation) :
    (session.notification call run).Sound session := by
  unfold notification
  split
  · exact sound_refuse session call _
  · next hphase =>
      have hrunning : session.phase = .running := by simpa using hphase
      split
      · exact sound_refuse session call _
      · split
        · exact .inr hrunning.symm
        · exact SameBut.refl session

theorem sound_request (session : Session) (call : Call) (run : Json → Option Verdict)
    (hrun : session.phase = .running → ∀ json, ∀ verdict ∈ run json, verdict.Sound session) :
    (session.request call run).Sound session := by
  unfold request
  split
  · exact sound_refuse session call _
  · next hphase =>
      split
      · exact SameBut.refl session
      · cases hbind : call.params.bind run with
        | none => exact sound_refuse session call _
        | some verdict =>
          obtain ⟨json, -, hjson⟩ := Option.bind_eq_some_iff.mp hbind
          exact hrun (by simpa using hphase) json verdict hjson

theorem sound_start (session : Session) (call : Call) : (session.start call).Sound session := by
  unfold start
  split
  · exact sound_refuse session call _
  · split
    · exact SameBut.refl session
    · split
      · exact sound_refuse session call _
      · exact .inl ⟨_, rfl⟩

theorem sameBut_shutdown (session : Session) (call : Call) :
    SameBut session (session.shutdown call).session := by
  unfold shutdown
  split
  · exact SameBut.refl session
  · dsimp only
    split <;> exact ⟨_, rfl⟩

theorem sound_judge (session : Session) (call : Call) : (session.judge call).Sound session := by
  unfold judge
  cases Method.ofName call.method with
  | start => exact sound_start session call
  | shutdown => exact sameBut_shutdown session call
  | exit => exact ⟨_, rfl⟩
  | initialized | didOpen | didChange | didClose | otherNotification =>
    exact sound_notification session call _
  | codeAction =>
    refine sound_request session call _ fun hphase json verdict hverdict => ?_
    obtain ⟨params, -, rfl⟩ := Option.map_eq_some_iff.mp hverdict
    exact .inr hphase.symm
  | otherRequest accepts =>
    refine sound_request session call _ fun _ json verdict hverdict => ?_
    split at hverdict
    · cases hverdict
      exact sound_refuse session call _
    · cases hverdict
  | cancel =>
    dsimp only [Verdict.Sound]
    split <;> exact SameBut.refl session
  | unknown =>
    dsimp only
    split
    · exact SameBut.refl session
    · exact sound_refuse session call _

/-! ### Runs -/

/-- Something that happens to a server: it is asked for an operation or gets a message, or
it is told to take settings over or to load its workspace. Each comes with the files as
they are found at that time. -/
inductive Event where
  | operation (files : Files Id) (operation : Operation)
  | message (files : Files Id) (message : Json)
  | configure (settings : Settings)
  | loadWorkspace (files : Files Id)

/-- The session behind an event. -/
def after (session : Session) : Event → Session
  | .operation files operation => (session.perform files operation : Effect).session
  | .message files message =>
    ((session.handle files message : Option Effect).map (·.session)).getD session
  | .configure settings => session.configure settings
  | .loadWorkspace files => (session.loadWorkspace files : Nat × Session).2

/-- The operation that an event brings about. -/
def operationOf? (session : Session) : Event → Option Operation
  | .operation _ operation => some operation
  | .message _ message => do
    let call ← Call.ofJson message
    guard (session.phase != .exited)
    match session.judge call with
    | .carryOut _ operation => some operation
    | .settled _ => none
  | .configure _ => none
  | .loadWorkspace _ => none

/-- The session behind events. -/
def run (session : Session) : List Event → Session
  | [] => session
  | event :: rest => (session.after event).run rest

/-- The operations that events bring about. -/
def history (session : Session) : List Event → List Operation
  | [] => []
  | event :: rest => (session.operationOf? event).toList ++ (session.after event).history rest

/-- What the last operation about a document says of it; without any there is no text. -/
def latestText (uri : Uri) (history : List Operation) : Option String :=
  (history.reverse.findSome? (·.about uri)).join

/-- A message does what the operation does that it brings about, or nothing but to move
the phase. -/
theorem after_message (files : Files Id) (session : Session) (message : Json) :
    (∃ phase operation, session.operationOf? (.message files message) = some operation ∧
      ((∃ rootUri, operation = .enter rootUri) ∨ phase = session.phase) ∧
      session.after (.message files message) =
        (perform files { session with phase } operation : Effect).session) ∨
    (session.operationOf? (.message files message) = none ∧
      SameBut session (session.after (.message files message))) := by
  rw [operationOf?, after, handle]
  cases Call.ofJson message with
  | none => exact .inr ⟨rfl, SameBut.refl session⟩
  | some call =>
    dsimp only
    by_cases hphase : session.phase = .exited
    · rw [if_pos (beq_iff_eq.mpr hphase)]
      refine .inr ⟨?_, SameBut.refl session⟩
      rw [hphase]
      rfl
    · rw [if_neg (mt beq_iff_eq.mp hphase)]
      have hguard : (guard ((session.phase != .exited) = true) : Option Unit) = some () :=
        if_pos (bne_iff_ne.mpr hphase)
      rw [hguard]
      have hsound := sound_judge session call
      cases hjudge : session.judge call with
      | carryOut phase operation =>
        rw [hjudge] at hsound
        refine .inl ⟨phase, operation, ?_, hsound, ?_⟩
        · change (match session.judge call with
            | .carryOut _ operation => some operation
            | .settled _ => none) = some operation
          rw [hjudge]
        · simp only [handleCall, hjudge]
          rfl
      | settled effect =>
        rw [hjudge] at hsound
        refine .inr ⟨by simp [hjudge], ?_⟩
        simp only [handleCall, hjudge]
        exact hsound

theorem Consistent.after (h : session.Consistent) (event : Event) :
    (session.after event).Consistent := by
  cases event with
  | operation files operation => exact h.perform files operation
  | message files message =>
    obtain ⟨phase, operation, -, -, heq⟩ | ⟨-, hsame⟩ := after_message files session message
    · rw [heq]
      exact (h.of_sameBut ⟨phase, rfl⟩).perform files operation
    · exact h.of_sameBut hsame
  | configure settings => exact ⟨rfl, rfl⟩
  | loadWorkspace files => exact consistent_loadWorkspace files session

/-- An event changes a document as the operation says that it brings about. -/
theorem document?_after (session : Session) (event : Event) (uri : Uri) :
    (session.after event).document? uri =
      ((session.operationOf? event).bind (·.about uri)).getD (session.document? uri) := by
  cases event with
  | operation files operation => exact document?_perform files operation uri
  | message files message =>
    obtain ⟨phase, operation, hop, -, heq⟩ | ⟨hop, hsame⟩ := after_message files session message
    · rw [heq, hop]
      exact document?_perform files operation uri
    · rw [document?_of_sameBut hsame, hop]
      rfl
  | configure settings => rfl
  | loadWorkspace files => exact document?_loadWorkspace files session uri

/-- Asking for code actions changes nothing. -/
theorem after_codeAction {event : Event} {params : ActionParams}
    (h : session.operationOf? event = some (.codeAction params)) : session.after event = session := by
  cases event with
  | operation files operation =>
    obtain rfl : operation = .codeAction params := Option.some.inj h
    exact session_offerAction session params
  | message files message =>
    obtain ⟨phase, operation, hop, hphase, heq⟩ | ⟨hop, -⟩ := after_message files session message
    · obtain rfl : operation = .codeAction params := Option.some.inj (hop.symm.trans h)
      obtain ⟨rootUri, hstart⟩ | rfl := hphase
      · cases hstart
      · rw [heq]
        exact session_offerAction session params
    · cases hop.symm.trans h
  | configure settings => cases h
  | loadWorkspace files => cases h

theorem consistent_run (h : session.Consistent) (events : List Event) :
    (session.run events).Consistent := by
  induction events generalizing session with
  | nil => exact h
  | cons event rest ih => exact ih (h.after event)

theorem findSome?_reverse_toList (uri : Uri) (operation : Option Operation) :
    operation.toList.reverse.findSome? (·.about uri) = operation.bind (·.about uri) := by
  cases operation with
  | none => rfl
  | some operation => simp

/-- The documents behind events are those of the history, or the ones from before. -/
theorem document?_run (session : Session) (events : List Event) (uri : Uri) :
    (session.run events).document? uri =
      ((session.history events).reverse.findSome? (·.about uri)).getD (session.document? uri) := by
  induction events generalizing session with
  | nil => rfl
  | cons event rest ih =>
    rw [run, ih, document?_after, history, List.reverse_append, List.findSome?_append,
      findSome?_reverse_toList]
    cases ((session.after event).history rest).reverse.findSome? (·.about uri) with
    | none => rfl
    | some text => rfl

/-- Whatever happens to a server that starts in a workspace or without one: directory and
parents are those of the settings, the text of a document is the one that the history leaves
it with, an event changes no document but those its operation is about, and asking for code
actions changes nothing. -/
theorem run_consistent_document? (hasClient : Bool) (root : Option String) (events : List Event) :
    let fresh : Session := { hasClient, root }
    let session := fresh.run events
    session.Consistent ∧
    (∀ uri, session.document? uri = latestText uri (fresh.history events)) ∧
    (∀ event uri, (session.after event).document? uri =
      ((session.operationOf? event).bind (·.about uri)).getD (session.document? uri)) ∧
    ∀ event params, session.operationOf? event = some (.codeAction params) →
      session.after event = session := by
  intro fresh session
  have hfresh : fresh.Consistent := ⟨directory_default.symm, rfl⟩
  refine ⟨consistent_run hfresh events, fun uri => ?_, document?_after session,
    fun event params => after_codeAction⟩
  rw [document?_run, latestText]
  cases (fresh.history events).reverse.findSome? (·.about uri) with
  | none => rfl
  | some text => rfl

end Session

end ServiceInjection

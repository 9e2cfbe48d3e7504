import Provision.Proofs.Reopening

/-! Stores that are opened, written, read and released in any order.

A program makes one request after the other, and any of them may find that no transaction goes
through. An event is a request with its answer and the session before and after it; what an event
may change is said once, `Event.Moves`, with one lemma for each kind of request. From that comes
the invariant of a whole run, `Kept`: whatever path a store was opened by leads to its database as
long as the program runs, and every database holds under each key what has been written there
last. -/
namespace Provision

/-- The path of the database that a handle is for. -/
def Handle.database (handle : Handle) : Path := Path.join handle.path databaseName

/-- A disk, and the stores that the program has open on it. -/
structure Session where
  disk : Disk
  handles : List Handle := []

namespace Session

/-- What a program may ask for. A put is a transaction of one entry, and so may a batch be. -/
inductive Request
  | openStore (root : Path) (name : Name) (cache : UInt64)
  | openExisting (root : Path) (name : Name) (cache : UInt64)
  | drop (handle : Handle)
  | write (handle : Handle) (transaction : Transaction)
  | get (handle : Handle) (key : Bytes)
  | has (handle : Handle) (key : Bytes)

inductive Answer
  | opened (handle : Handle)
  | refused (halt : Halt StoreError)
  | dropped
  | written (result : Except StoreError Unit)
  | value (result : Except StoreError (Option Bytes))
  | has (result : Except StoreError Bool)
  /-- The program has no such handle. -/
  | noHandle

/-- The session after an attempt to open a store. -/
def receive (handles : List Handle) : Except (Halt StoreError) Handle × Disk → Answer × Session
  | (.ok handle, disk) => (.opened handle, ⟨disk, handle :: handles⟩)
  | (.error halt, disk) => (.refused halt, ⟨disk, handles⟩)

def answer (session : Session) : Request → Answer × Session
  | .openStore root name cache =>
    receive session.handles (session.disk.openStore root name cache)
  | .openExisting root name cache =>
    receive session.handles (session.disk.openExisting root name cache)
  | .drop handle =>
    if handle ∈ session.handles then
      (.dropped, ⟨session.disk.close handle, session.handles.erase handle⟩)
    else (.noHandle, session)
  | .write handle transaction =>
    if handle ∈ session.handles then
      let (result, disk) := session.disk.withStore handle.file fun s => s.commit transaction
      (.written result, { session with disk })
    else (.noHandle, session)
  | .get handle key =>
    if handle ∈ session.handles then (.value ((session.disk.store handle.file).get key), session)
    else (.noHandle, session)
  | .has handle key =>
    if handle ∈ session.handles then (.has ((session.disk.store handle.file).has key), session)
    else (.noHandle, session)

/-- A request with its answer, and the session before and after it. -/
structure Event where
  before : Session
  request : Request
  answer : Answer
  after : Session

/-- The handle that a request is made with. -/
def Request.handle? : Request → Option Handle
  | .openStore _ _ _ | .openExisting _ _ _ => none
  | .drop handle | .write handle _ | .get handle _ | .has handle _ => some handle

def ask (session : Session) (request : Request) : Event where
  before := session
  request := request
  answer := (session.answer request).1
  after := (session.answer request).2

/-- The session with so and so many transactions that go through from now on. -/
def allow (session : Session) (allowance : Allowance) : Session :=
  { session with disk := { session.disk with allowance } }

/-- The events of requests, each in the session that the one before it has left. -/
def run (session : Session) : List (Request × Allowance) → List Event
  | [] => []
  | (request, allowance) :: rest =>
    let event := (session.allow allowance).ask request
    event :: run event.after rest

section Asking

variable {session : Session} {handle : Handle}

theorem ask_noHandle {request : Request} (hr : request.handle? = some handle)
    (hm : handle ∉ session.handles) :
    session.ask request = ⟨session, request, .noHandle, session⟩ := by
  cases request with
  | openStore | openExisting => cases hr
  | drop | write | get | has =>
    cases hr
    simp only [ask, answer, if_neg hm]

theorem ask_get (hm : handle ∈ session.handles) (key : Bytes) :
    session.ask (.get handle key) =
      ⟨session, .get handle key, .value ((session.disk.store handle.file).get key), session⟩ := by
  simp only [ask, answer, if_pos hm]

theorem ask_has (hm : handle ∈ session.handles) (key : Bytes) :
    session.ask (.has handle key) =
      ⟨session, .has handle key, .has ((session.disk.store handle.file).has key), session⟩ := by
  simp only [ask, answer, if_pos hm]

theorem ask_write (hm : handle ∈ session.handles) (transaction : Transaction) :
    session.ask (.write handle transaction) =
      ⟨session, .write handle transaction,
        .written (session.disk.withStore handle.file fun s => s.commit transaction).1,
        ⟨(session.disk.withStore handle.file fun s => s.commit transaction).2,
          session.handles⟩⟩ := by
  simp only [ask, answer, if_pos hm]

end Asking

/-! ### What has been written -/

/-- The entries that an event has written into the store at a place. -/
def Event.entries (initial : Disk) (place : Location) (event : Event) : List (Bytes × Bytes) :=
  match event.request, event.answer with
  | .write handle transaction, .written (.ok ()) =>
    if initial.placeOf handle.database = place then transaction.entries else []
  | _, _ => []

theorem Event.entries_of_ne {initial : Disk} {place : Location} (event : Event)
    (h : event.answer ≠ .written (.ok ())) : event.entries initial place = [] := by
  unfold entries
  split
  · next ha => exact absurd ha h
  · rfl

/-- The value of the last entry with a key that events have written into the store at a place, and
what the store held at first if there is none. -/
def lastWritten (initial : Disk) (events : List Event) (place : Location) (key : Bytes) :
    Option Bytes :=
  (Dictionary.find? key (events.flatMap (Event.entries initial place)).reverse).or
    ((initial.tableAt place).find? key)

theorem lastWritten_concat (initial : Disk) (past : List Event) (event : Event) (place : Location)
    (key : Bytes) : lastWritten initial (past ++ [event]) place key =
      (Dictionary.find? key (event.entries initial place).reverse).or
        (lastWritten initial past place key) := by
  rw [lastWritten, lastWritten, List.flatMap_append, List.flatMap_singleton, List.reverse_append,
    Dictionary.find?_append, Option.or_assoc]

/-! ### What an event may change -/

variable {initial : Disk} {past : List Event} {session : Session} {event : Event} {handle : Handle}

/-- The path of a handle leads to its database. -/
structure Stands (initial disk : Disk) (handle : Handle) : Prop where
  located : disk.locate handle.database = .ok (initial.placeOf handle.database)
  entry : disk.entry? (initial.placeOf handle.database) = some (.file handle.file)
  database : disk.IsDatabase handle.file

theorem Stands.carries {disk disk' : Disk} (h : Stands initial disk handle)
    (carries : disk.Carries disk') : Stands initial disk' handle where
  located := carries.toExtends.locate h.located
  entry := carries.kept _ _ h.entry
  database := carries.databases _ _ h.entry h.database

theorem Stands.file? {disk : Disk} (h : Stands initial disk handle) :
    disk.file? handle.database = some handle.file :=
  Disk.file?_eq_some_iff.mpr ⟨_, h.located, h.entry⟩

/-- The event has opened this handle. -/
def Event.Opens (event : Event) (handle : Handle) : Prop := event.answer = .opened handle

/-- The event has made the database at a place, or found it; or at least it has made the file, and
then no transaction went through. -/
def Event.Creates (initial : Disk) (place : Location) (event : Event) : Prop :=
  ∃ root name cache, event.request = .openStore root name cache ∧
    initial.placeOf (databasePath root name) = place ∧
      ((∃ handle, event.Opens handle) ∨
        event.answer = .refused (.failed (.file .writeRefused)))

/-- What an event may change: handles come and go with the files that are held, a new handle stands,
a new file has been created, and tables change by the entries that are written. -/
structure Event.Moves (initial : Disk) (event : Event) : Prop where
  coherent : event.after.disk.Coherent
  carries : event.before.disk.Carries event.after.disk
  held : event.after.disk.held.Perm (event.after.handles.map Handle.file ++ initial.held)
  distinct : (event.after.handles.map Handle.file).Nodup
  handles : ∀ handle ∈ event.after.handles, handle ∈ event.before.handles ∨ event.Opens handle
  opened : ∀ handle, event.Opens handle → Stands initial event.after.disk handle ∧
    handle.file ∉ initial.held
  files : ∀ place id, event.after.disk.entry? place = some (.file id) →
    event.before.disk.entry? place = some (.file id) ∨ event.Creates initial place
  tables : ∀ place key, (event.after.disk.tableAt place).find? key =
    (Dictionary.find? key (event.entries initial place).reverse).or
      ((event.before.disk.tableAt place).find? key)

/-- What is so of a session after any events. -/
structure Kept (initial : Disk) (past : List Event) (session : Session) : Prop where
  coherent : session.disk.Coherent
  grown : initial.Extends session.disk
  held : session.disk.held.Perm (session.handles.map Handle.file ++ initial.held)
  distinct : (session.handles.map Handle.file).Nodup
  handles : ∀ handle ∈ session.handles, ∃ event ∈ past, event.Opens handle
  opened : ∀ event ∈ past, ∀ handle, event.Opens handle → Stands initial session.disk handle ∧
    handle.file ∉ initial.held
  files : ∀ place id, session.disk.entry? place = some (.file id) →
    initial.entry? place = some (.file id) ∨ ∃ event ∈ past, event.Creates initial place
  tables : ∀ place key, (session.disk.tableAt place).find? key =
    lastWritten initial past place key

namespace Kept

theorem start (coherent : initial.Coherent) : Kept initial [] ⟨initial, []⟩ where
  coherent := coherent
  grown := .refl initial
  held := .refl _
  distinct := List.nodup_nil
  handles := fun _ h => (nomatch h)
  opened := fun _ h => (nomatch h)
  files := fun _ _ h => .inl h
  tables := fun _ _ => rfl

/-- How many transactions go through makes no difference to what is there. -/
theorem allow (h : Kept initial past session) (allowance : Allowance) :
    Kept initial past (session.allow allowance) where
  coherent := h.coherent.setContents session.disk.contents allowance h.coherent.held
  grown := ⟨h.grown.kept, h.grown.workingDirectory⟩
  held := h.held
  distinct := h.distinct
  handles := h.handles
  opened := fun event he handle ho => (h.opened event he handle ho).imp_left
    fun hstands => hstands.carries (.ofHeld session.disk session.disk.held allowance)
  files := h.files
  tables := h.tables

theorem next (h : Kept initial past event.before) (moves : event.Moves initial) :
    Kept initial (past ++ [event]) event.after where
  coherent := moves.coherent
  grown := h.grown.trans moves.carries.toExtends
  held := moves.held
  distinct := moves.distinct
  handles := fun handle hm => by
    rcases moves.handles handle hm with hbefore | hopens
    · obtain ⟨earlier, he, hopens⟩ := h.handles handle hbefore
      exact ⟨earlier, List.mem_append_left _ he, hopens⟩
    · exact ⟨event, List.mem_concat_self, hopens⟩
  opened := fun earlier he handle hopens => by
    rcases List.mem_append.mp he with he | he
    · obtain ⟨hstands, hfree⟩ := h.opened earlier he handle hopens
      exact ⟨hstands.carries moves.carries, hfree⟩
    · obtain rfl := List.mem_singleton.mp he
      exact moves.opened handle hopens
  files := fun place id hentry => by
    rcases moves.files place id hentry with hbefore | hcreates
    · refine (h.files place id hbefore).imp_right ?_
      rintro ⟨earlier, he, hcreates⟩
      exact ⟨earlier, List.mem_append_left _ he, hcreates⟩
    · exact .inr ⟨event, List.mem_concat_self, hcreates⟩
  tables := fun place key => by
    rw [moves.tables, h.tables, lastWritten_concat]

/-! ### One lemma for each kind of request -/

/-- What changes nothing. -/
theorem moves_of_same (h : Kept initial past event.before) (same : event.after = event.before)
    (opens : ∀ handle, ¬ event.Opens handle) (writes : event.answer ≠ .written (.ok ())) :
    event.Moves initial where
  coherent := same ▸ h.coherent
  carries := by
    rw [same]
    exact .ofHeld event.before.disk event.before.disk.held event.before.disk.allowance
  held := same ▸ h.held
  distinct := same ▸ h.distinct
  handles := fun handle hm => .inl (same ▸ hm)
  opened := fun handle ho => absurd ho (opens handle)
  files := fun place id he => .inl (same ▸ he)
  tables := fun place key => by
    rw [same, event.entries_of_ne writes]
    rfl

/-- What opens a store: its file joins those that are held, and its handle those that the program
has. -/
theorem moves_of_opens (h : Kept initial past event.before) (opens : event.Opens handle)
    (free : handle.file ∉ event.before.disk.held)
    (held : event.after.disk.held = handle.file :: event.before.disk.held)
    (handles : event.after.handles = handle :: event.before.handles)
    (stands : Stands initial event.after.disk handle) (coherent : event.after.disk.Coherent)
    (carries : event.before.disk.Carries event.after.disk)
    (files : ∀ place id, event.after.disk.entry? place = some (.file id) →
      event.before.disk.entry? place = some (.file id) ∨ event.Creates initial place)
    (tables : ∀ place, event.after.disk.tableAt place = event.before.disk.tableAt place) :
    event.Moves initial := by
  have hnew : handle.file ∉ event.before.handles.map Handle.file ++ initial.held :=
    fun hm => free (h.held.mem_iff.mpr hm)
  rw [List.mem_append, not_or] at hnew
  refine ⟨coherent, carries, ?_, ?_, fun other hm => ?_, fun other hopens => ?_, files,
    fun place key => ?_⟩
  · rw [held, handles]
    exact h.held.cons _
  · rw [handles]
    exact List.nodup_cons.mpr ⟨hnew.1, h.distinct⟩
  · rw [handles] at hm
    rcases List.mem_cons.mp hm with rfl | hm
    · exact .inr opens
    · exact .inl hm
  · obtain rfl : handle = other := Answer.opened.inj (opens.symm.trans hopens)
    exact ⟨stands, hnew.2⟩
  · rw [tables, event.entries_of_ne (opens ▸ nofun)]
    rfl

theorem moves_openStore (h : Kept initial past session) (root : Path) (name : Name)
    (cache : UInt64) : (session.ask (.openStore root name cache)).Moves initial := by
  have hopening := Disk.openStore_opening h.coherent root name cache
  have hcoherent := h.coherent.openStore root name cache
  have hcarries := hopening.carries h.coherent
  have htables := fun place => hopening.tableAt hcoherent place
  have hfiles := hopening.files
  have hplace : session.disk.placeOf (databasePath root name) =
      initial.placeOf (databasePath root name) := h.grown.placeOf _
  rcases ho : session.disk.openStore root name cache with ⟨halt | handle, after⟩
  · have hask : session.ask (.openStore root name cache) =
        ⟨session, .openStore root name cache, .refused halt, ⟨after, session.handles⟩⟩ := by
      simp only [ask, answer, ho, receive]
    rw [ho] at hopening hcoherent hcarries htables hfiles
    have hheld : after.held = session.disk.held := by
      cases hopening with
      | made _ _ hheld => exact hheld
      | refused hadds => exact hadds.held
    rw [hask]
    refine ⟨hcoherent, hcarries, hheld ▸ h.held, h.distinct, fun _ hm => .inl hm,
      fun _ hopens => (nomatch hopens), fun place id he => ?_,
      fun place key => congrArg (Dictionary.find? key) (htables place)⟩
    refine (hfiles place id he).imp_right ?_
    rintro ⟨rfl, ⟨_, hok⟩ | hrefused⟩
    · cases hok
    · cases hrefused
      exact ⟨root, name, cache, rfl, hplace.symm, .inr rfl⟩
  · have hask : session.ask (.openStore root name cache) =
        ⟨session, .openStore root name cache, .opened handle,
          ⟨after, handle :: session.handles⟩⟩ := by
      simp only [ask, answer, ho, receive]
    have hdatabase : handle.database = databasePath root name := by
      rw [Handle.database, Disk.openStore_path ho, databasePath]
    rw [ho] at hopening hcoherent hcarries htables hfiles
    cases hopening with
    | @opened _ table _ hopened =>
    have hstands : Stands initial after handle := by
      refine ⟨?_, ?_, .table hopened.holds.content⟩
      · rw [hdatabase, ← hplace]
        exact hopened.located
      · rw [hdatabase, ← hplace]
        exact hopened.holds.entry
    rw [hask]
    refine moves_of_opens h rfl (hopened.free h.coherent.held) hopened.held rfl hstands hcoherent
      hcarries (fun place id he => (hfiles place id he).imp_right ?_) htables
    rintro ⟨rfl, -⟩
    exact ⟨root, name, cache, rfl, hplace.symm, .inl ⟨handle, rfl⟩⟩

theorem moves_openExisting (h : Kept initial past session) (root : Path) (name : Name)
    (cache : UInt64) : (session.ask (.openExisting root name cache)).Moves initial := by
  rcases session.disk.openExisting_cases root name cache with
    ⟨halt, ho⟩ | ⟨id, ho, hfound, hfree, hdatabase⟩
  · have hask : session.ask (.openExisting root name cache) =
        ⟨session, .openExisting root name cache, .refused halt, session⟩ := by
      simp only [ask, answer, ho, receive]
    rw [hask]
    exact moves_of_same h rfl nofun nofun
  · let handle : Handle := ⟨name, Path.join root name, id⟩
    have hask : session.ask (.openExisting root name cache) =
        ⟨session, .openExisting root name cache, .opened handle,
          ⟨session.disk.hold id, handle :: session.handles⟩⟩ := by
      simp only [ask, answer, ho, receive, handle]
    have hcarries : session.disk.Carries (session.disk.hold id) :=
      .ofHeld session.disk (id :: session.disk.held) session.disk.allowance
    obtain ⟨place, hlocate, hentry⟩ := Disk.file?_eq_some_iff.mp hfound
    obtain rfl : place = initial.placeOf (databasePath root name) :=
      (Disk.eq_placeOf_of_locate hlocate).trans (h.grown.placeOf _)
    have hstands : Stands initial session.disk handle := ⟨hlocate, hentry, hdatabase⟩
    have hids : ∀ other ∈ id :: session.disk.held, other < session.disk.nextFile :=
      List.forall_mem_cons.mpr ⟨h.coherent.lt_nextFile hentry, h.coherent.held⟩
    rw [hask]
    exact moves_of_opens h rfl hfree rfl rfl (hstands.carries hcarries)
      (h.coherent.setContents session.disk.contents session.disk.allowance hids) hcarries
      (fun _ _ he => .inl he) fun _ => rfl

theorem moves_drop (h : Kept initial past session) (hm : handle ∈ session.handles) :
    (session.ask (.drop handle)).Moves initial := by
  have hask : session.ask (.drop handle) = ⟨session, .drop handle, .dropped,
      ⟨session.disk.close handle, session.handles.erase handle⟩⟩ := by
    simp only [ask, answer, if_pos hm]
  have hothers := (List.perm_cons_erase hm).map Handle.file
  have hheld : (session.disk.held.erase handle.file).Perm
      ((session.handles.erase handle).map Handle.file ++ initial.held) := by
    have herase := (h.held.trans (hothers.append_right initial.held)).erase handle.file
    rwa [List.map_cons, List.cons_append, List.erase_cons_head] at herase
  have hdistinct := hothers.nodup_iff.mp h.distinct
  rw [List.map_cons, List.nodup_cons] at hdistinct
  rw [hask]
  exact ⟨h.coherent.close handle, .ofHeld session.disk _ session.disk.allowance, hheld,
    hdistinct.2, fun _ hm => .inl (List.mem_of_mem_erase hm), fun _ hopens => (nomatch hopens),
    fun _ _ he => .inl he, fun _ _ => rfl⟩

/-- A handle that the program has stands, since it has been opened. -/
theorem stands (h : Kept initial past session) (hm : handle ∈ session.handles) :
    Stands initial session.disk handle := by
  obtain ⟨event, he, hopens⟩ := h.handles handle hm
  exact (h.opened event he handle hopens).1

/-- A transaction is refused and changes nothing, or it sets its entries in one table. -/
theorem write_cases (h : Kept initial past session) (hm : handle ∈ session.handles)
    (transaction : Transaction) :
    let written := session.disk.withStore handle.file fun s => s.commit transaction
    (session.disk.allowance.spend? = none ∧ written.1 = .error (.file .writeRefused) ∧
        session.disk.Untouched written.2 ∧
          ∀ place, written.2.tableAt place = session.disk.tableAt place) ∨
      session.disk.allowance.spend?.isSome ∧ written.1 = .ok () ∧
        ∀ place, written.2.tableAt place =
          if initial.placeOf handle.database = place then
            (session.disk.tableAt place).insertAll transaction.entries
          else session.disk.tableAt place := by
  intro written
  obtain ⟨-, hentry, hdatabase⟩ := h.stands hm
  have htable : session.disk.tableAt (initial.placeOf handle.database) =
      session.disk.table handle.file := by
    rw [Disk.tableAt, hentry]
  have hcoherent : written.2.Coherent := h.coherent.withStore _ _
  rcases h.coherent.commit_cases hentry hdatabase transaction with
    ⟨hnone, hw, huntouched⟩ | ⟨hsome, hw, hholds⟩
  · exact .inl ⟨hnone, hw, huntouched, huntouched.tableAt⟩
  · refine .inr ⟨hsome, hw, fun place => ?_⟩
    split
    · next hplace =>
      rw [← hplace, htable]
      exact hholds.tableAt
    · next hplace => exact hholds.tableAt_of_ne hcoherent (Ne.symm hplace)

theorem moves_write (h : Kept initial past session) (hm : handle ∈ session.handles)
    (transaction : Transaction) : (session.ask (.write handle transaction)).Moves initial := by
  have hcarries := Disk.Carries.withStore session.disk handle.file fun s => s.commit transaction
  have hcoherent := h.coherent.withStore handle.file fun s => s.commit transaction
  rw [ask_write hm]
  refine ⟨hcoherent, hcarries, h.held, h.distinct, fun _ hm => .inl hm,
    fun _ hopens => (nomatch hopens), fun _ _ he => .inl he, fun place key => ?_⟩
  rcases h.write_cases hm transaction with ⟨-, hw, -, htables⟩ | ⟨-, hw, htables⟩
  · rw [htables, Event.entries, hw]
    rfl
  · rw [htables, Event.entries, hw]
    dsimp only
    split
    · exact Dictionary.find?_insertAll ..
    · rfl

/-- What comes of a request, whichever it is. -/
theorem moves (h : Kept initial past session) (request : Request) :
    (session.ask request).Moves initial := by
  by_cases hm : ∀ handle, request.handle? = some handle → handle ∈ session.handles
  · cases request with
    | openStore root name cache => exact h.moves_openStore root name cache
    | openExisting root name cache => exact h.moves_openExisting root name cache
    | drop handle => exact h.moves_drop (hm handle rfl)
    | write handle transaction => exact h.moves_write (hm handle rfl) transaction
    | get handle key =>
      rw [ask_get (hm handle rfl)]
      exact moves_of_same h rfl nofun nofun
    | has handle key =>
      rw [ask_has (hm handle rfl)]
      exact moves_of_same h rfl nofun nofun
  · obtain ⟨handle, hr, hm⟩ := by simpa only [not_forall] using hm
    rw [ask_noHandle hr hm]
    exact moves_of_same h rfl nofun nofun

/-! ### A whole run -/

/-- Every event of a run is the answer to a request in a session in which all is kept. -/
theorem run (h : Kept initial past session) {requests : List (Request × Allowance)}
    {more : List Event} (hmore : more ++ [event] <+: session.run requests) :
    Kept initial (past ++ more) event.before ∧ event = event.before.ask event.request := by
  induction requests generalizing past session more with
  | nil =>
    have hnil := List.prefix_nil.mp hmore
    simp at hnil
  | cons first rest ih =>
    obtain ⟨request, allowance⟩ := first
    have hnow := h.allow allowance
    rw [Session.run] at hmore
    cases more with
    | nil =>
      obtain ⟨rfl, -⟩ := List.cons_prefix_cons.mp hmore
      rw [List.append_nil]
      exact ⟨hnow, rfl⟩
    | cons earlier others =>
      obtain ⟨rfl, hothers⟩ := List.cons_prefix_cons.mp hmore
      have hlater := ih (hnow.next (hnow.moves request)) hothers
      rwa [List.append_assoc] at hlater

end Kept
end Session
end Provision

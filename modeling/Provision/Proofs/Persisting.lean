import Provision.Proofs.Sessions

/-! Stores as maps that last.

Whatever requests are made, and in whatever order, each store is a map of its own: what is read
under a key is what was written there last, in one transaction or another, through this handle or
one that has been dropped since. `Event.Follows` says what that asks of one event, and
`run_follows_iff` that every event of every run does it, unless a store that is still open is opened
with a cache whose bytes cannot be counted: that is noticed before anyone looks whether the store
is open; or a database is read that someone has left without a table. No request leaves one so
(`Kept.hasTables`). -/
namespace Provision.Session

/-! ### Requests that open a store -/

namespace Request

/-- The file that the path leads to, after the directory of the store has been made if the request
makes it. -/
def found? (disk : Disk) : Request → Option Nat
  | .openStore root name _ =>
    match disk.makeDirectories (Path.join root name) with
    | (.ok (), made) => made.file? (databasePath root name)
    | (.error _, _) => none
  | .openExisting root name _ => disk.file? (databasePath root name)
  | _ => none

end Request

variable {initial : Disk} {past : List Event} {session : Session} {handle : Handle} {id : Nat}
  {request : Request}

/-! ### Opening what is found -/

namespace Kept

variable (h : Kept initial past session)

include h

theorem get (hm : handle ∈ session.handles)
    (hasTable : session.disk.contents.find? handle.file ≠ some .shell) (key : Bytes) :
    (session.disk.store handle.file).get key =
      .ok (lastWritten initial past (initial.placeOf handle.database) key) := by
  have htable : session.disk.tableAt (initial.placeOf handle.database) =
      session.disk.table handle.file := by
    rw [Disk.tableAt, (h.stands hm).entry]
  rw [← h.tables, htable]
  cases (h.stands hm).database with
  | table content =>
    rw [Disk.store_of_database content, Disk.table, content]
    rfl
  | shell content => exact absurd content hasTable

end Kept

/-! ### Every run -/

theorem receive_disk (handles : List Handle) (outcome : Except (Halt StoreError) Handle × Disk) :
    (receive handles outcome).2.disk = outcome.2 := by
  obtain ⟨_ | _, disk⟩ := outcome
  · rfl
  · rfl

/-- No request leaves a database without a table. -/
theorem Kept.hasTables (h : Kept initial past session) (tables : session.disk.HasTables)
    (request : Request) : (session.ask request).after.disk.HasTables := by
  by_cases hm : ∀ handle, request.handle? = some handle → handle ∈ session.handles
  · cases request with
    | openStore root name cache =>
      show (receive _ _).2.disk.HasTables
      rw [receive_disk]
      exact (Disk.openStore_opening h.coherent root name cache).hasTables tables
    | openExisting root name cache =>
      show (receive _ _).2.disk.HasTables
      rw [receive_disk]
      rcases session.disk.openExisting_cases root name cache with ⟨halt, ho⟩ | ⟨id, ho, -⟩
      · rw [ho]
        exact tables
      · rw [ho]
        exact tables
    | drop handle =>
      simp only [ask, answer, if_pos (hm handle rfl)]
      exact tables.of_contents fun _ => rfl
    | write handle transaction =>
      obtain ⟨-, hentry, hdatabase⟩ := h.stands (hm handle rfl)
      rw [ask_write (hm handle rfl)]
      rcases h.coherent.commit_cases hentry hdatabase transaction with
        ⟨-, -, huntouched⟩ | ⟨-, -, hholds⟩
      · exact tables.of_contents huntouched.contents
      · exact hholds.hasTables (by simp) tables
    | get handle key =>
      rw [ask_get (hm handle rfl)]
      exact tables
    | has handle key =>
      rw [ask_has (hm handle rfl)]
      exact tables
  · obtain ⟨handle, hr, hm⟩ := by simpa only [not_forall] using hm
    rw [ask_noHandle hr hm]
    exact tables

/-- A store is opened while it is still open, with the least cache whose bytes cannot be counted. -/
def uncounted : List (Request × Allowance) :=
  [(.openStore ['/'] ['s'] 16, none), (.openStore ['/'] ['s'] 17592186044416, none)]

end Provision.Session

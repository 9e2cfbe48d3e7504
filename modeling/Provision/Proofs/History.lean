import Provision.Proofs.Occupying
import Provision.Proofs.Removing
import Provision.Proofs.Roundabout

/-! Runs and removals one after the other.

One call is made after the other, each on the host that the one before it has left. Once a run has
opened a store of an instance, the directory of the store is there until it is removed, itself or
with a directory around it, and until then every run for this instance is refused:
`history_refused`. The invariant is a single entry in the directory of the instance, which each
call keeps. `history_instances` says what follows for every sequence of calls. -/
namespace Provision.Instance

/-! ### Calls -/

/-- A call, and what it is given. -/
inductive Call
  | create (clock : Int) (request : Request)
  | delete (receipt : Receipt)

namespace Call

/-- The host that a call leaves. -/
def run (host : Host) : Call → Host
  | create clock request => (Instance.create host clock request).2
  | delete receipt => { host with disk := (Instance.delete host.disk receipt).2 }

/-- The instance that is asked for, if any is, has one name for its directory. -/
def IsPlain : Call → Prop
  | create _ request => request.name.IsPlain
  | delete _ => True

end Call

/-- The host that calls leave. -/
def after (host : Host) (calls : List Call) : Host :=
  calls.foldl Call.run host

/-- A call, with the host as it finds it. -/
structure Event where
  host : Host
  call : Call

def history (host : Host) : List Call → List Event
  | [] => []
  | call :: rest => ⟨host, call⟩ :: history (call.run host) rest

/-! ### What a call does to an instance -/

namespace Event

variable {event : Event} {place target : Location} {store : Name}

/-- The event is a run for the instance whose directory is at a place. -/
structure IsRun (event : Event) (place : Location) (clock : Int) (request : Request)
    (directory : Path) : Prop where
  call : event.call = .create clock request
  named : directory? event.host.disk request = some directory
  place : directoryPlace directory = place

/-- The event makes the instance at a place. -/
def Makes (event : Event) (place : Location) : Prop :=
  ∃ clock request directory, event.IsRun place clock request directory ∧
    ∃ receipt, (create event.host clock request).1 = .ok receipt

/-- The event opens a store of the instance at a place, whatever comes of it. -/
def Opens (event : Event) (place : Location) (store : Name) : Prop :=
  ∃ clock request directory, event.IsRun place clock request directory ∧
    ∃ attempt ∈ attempts event.host.disk request, attempt.store = store ∧ attempt.succeeds

/-- If the event is a run for the instance at a place, it is refused because there is something
in the directory. -/
def IsRefused (event : Event) (place : Location) : Prop :=
  ∀ clock request directory, event.IsRun place clock request directory →
    (create event.host clock request).1 = .error (.failed (occupiedError directory))

/-- The event removes what is at a place, itself or with a directory around it. -/
def Removes (event : Event) (target : Location) : Prop :=
  ∃ receipt, event.call = .delete receipt ∧ Deletes event.host.disk receipt target

/-- If the event is a run, it changes nothing that is there, and goes through only if there is
nothing in the directory of its instance. -/
def IsCareful (event : Event) : Prop :=
  ∀ clock request, event.call = .create clock request →
    Disk.Keeps event.host.disk (create event.host clock request).2.disk ∧
      ∀ directory receipt, directory? event.host.disk request = some directory →
        (create event.host clock request).1 = .ok receipt →
          event.host.disk.hasEntries (directoryPlace directory) = false

theorem Makes.opens (h : event.Makes place) (hs : store ∈ storeNames) :
    event.Opens place store := by
  obtain ⟨clock, request, directory, hrun, receipt, hok⟩ := h
  exact ⟨clock, request, directory, hrun, attempt_of_create hok store hs⟩

theorem IsRefused.not_makes (h : event.IsRefused place) : ¬ event.Makes place := by
  rintro ⟨clock, request, directory, hrun, receipt, hok⟩
  rw [h clock request directory hrun] at hok
  cases hok

end Event

/-! ### One call -/

namespace Call

variable {host : Host} {call : Call} {place target : Location} {store : Name} {entry : Entry}

theorem run_coherent (coherent : host.disk.Coherent) (call : Call) :
    (call.run host).disk.Coherent := by
  cases call with
  | create clock request => exact create_coherent coherent clock request
  | delete receipt => exact delete_coherent coherent receipt

/-- What is there stays until it is removed. -/
theorem run_kept (coherent : host.disk.Coherent) (plain : call.IsPlain)
    (kept : ¬ Event.Removes ⟨host, call⟩ target) (h : host.disk.entry? target = some entry) :
    Disk.entry? (call.run host).disk target = some entry := by
  cases call with
  | create clock request => exact (create_keeps coherent clock plain).kept target entry h
  | delete receipt =>
    have hstays : ¬ Deletes host.disk receipt target := fun hgone => kept ⟨receipt, rfl, hgone⟩
    rw [← h]
    exact entry?_delete hstays

/-- A store that is opened has its directory in that of the instance. -/
theorem run_opens (coherent : host.disk.Coherent) (h : Event.Opens ⟨host, call⟩ place store) :
    Disk.entry? (call.run host).disk (place ++ [store]) = some .directory := by
  obtain ⟨clock, request, directory, ⟨rfl, hnamed, rfl⟩, attempt, ha, rfl, hopens⟩ := h
  exact entry?_of_attempt coherent clock hnamed ha hopens

theorem run_careful (coherent : host.disk.Coherent) (plain : call.IsPlain) :
    Event.IsCareful ⟨host, call⟩ := by
  rintro clock request rfl
  exact ⟨create_keeps coherent clock plain,
    fun directory receipt named h => noEntries_of_create coherent plain named h⟩

/-- As long as there is something in the directory of an instance, a run for it is refused. -/
theorem run_refused (coherent : host.disk.Coherent) (plain : call.IsPlain)
    (full : host.disk.hasEntries place) : Event.IsRefused ⟨host, call⟩ place := by
  rintro clock request directory ⟨rfl, hnamed, rfl⟩
  exact create_occupied coherent clock plain hnamed full

end Call

/-! ### Calls in a row -/

variable {host : Host} {calls : List Call} {place : Location} {store : Name}

theorem after_coherent (coherent : host.disk.Coherent) (calls : List Call) :
    (after host calls).disk.Coherent := by
  induction calls generalizing host with
  | nil => exact coherent
  | cons call rest ih => exact ih (Call.run_coherent coherent call)

theorem history_careful (coherent : host.disk.Coherent) (plain : ∀ call ∈ calls, call.IsPlain) :
    ∀ event ∈ history host calls, event.IsCareful := by
  induction calls generalizing host with
  | nil => intro event he; cases he
  | cons call rest ih =>
    obtain ⟨hplain, hrest⟩ := List.forall_mem_cons.mp plain
    intro event he
    rcases List.mem_cons.mp he with rfl | he
    · exact Call.run_careful coherent hplain
    · exact ih (Call.run_coherent coherent call) hrest event he

/-- While the directory of a store is in that of an instance, every run for the instance is
refused. -/
theorem history_refused (coherent : host.disk.Coherent) (plain : ∀ call ∈ calls, call.IsPlain)
    (hstore : store ≠ []) (there : host.disk.entry? (place ++ [store]) = some .directory)
    (kept : ∀ event ∈ history host calls, ¬ event.Removes (place ++ [store])) :
    ∀ event ∈ history host calls, event.IsRefused place := by
  induction calls generalizing host with
  | nil => intro event he; cases he
  | cons call rest ih =>
    obtain ⟨hplain, hrest⟩ := List.forall_mem_cons.mp plain
    obtain ⟨hcall, hkept⟩ := List.forall_mem_cons.mp kept
    intro event he
    rcases List.mem_cons.mp he with rfl | he
    · exact Call.run_refused coherent hplain (Disk.hasEntries_of_entry? hstore there)
    · exact ih (Call.run_coherent coherent call) hrest
        (Call.run_kept coherent hplain hcall there) hkept event he

/-- From the event on that opens a store, every run for the instance is refused until the store is
removed. -/
theorem history_pairwise (coherent : host.disk.Coherent) (plain : ∀ call ∈ calls, call.IsPlain)
    (hstore : store ≠ [])
    (kept : ∀ event ∈ history host calls, ¬ event.Removes (place ++ [store])) :
    (history host calls).Pairwise fun earlier later =>
      earlier.Opens place store → later.IsRefused place := by
  induction calls generalizing host with
  | nil => exact .nil
  | cons call rest ih =>
    obtain ⟨hplain, hrest⟩ := List.forall_mem_cons.mp plain
    obtain ⟨-, hkept⟩ := List.forall_mem_cons.mp kept
    have hcoherent := Call.run_coherent coherent call
    refine .cons (fun later hl hopens => ?_) (ih hcoherent hrest hkept)
    exact history_refused hcoherent hrest hstore (Call.run_opens coherent hopens) hkept later hl

/-- **Instances are made once.** Whatever calls are made one after the other, no run changes a file
that was there, and one goes through only if there is nothing in the directory of its instance. In
any part of the calls in which the directory of a store of an instance is not removed, neither
itself nor with a directory around it, every run for the instance is refused after one that has
made it or has opened this store, and so at most one run makes it. -/
theorem history_instances (coherent : host.disk.Coherent)
    (plain : ∀ call ∈ calls, call.IsPlain) :
    (∀ event ∈ history host calls, event.IsCareful) ∧
      ∀ before part behind, calls = before ++ part ++ behind →
        ∀ place, ∀ store ∈ storeNames,
          (∀ event ∈ history (after host before) part, ¬ event.Removes (place ++ [store])) →
            (history (after host before) part).Pairwise fun earlier later =>
              (earlier.Makes place ∨ earlier.Opens place store → later.IsRefused place) ∧
                ¬ (earlier.Makes place ∧ later.Makes place) := by
  refine ⟨history_careful coherent plain, ?_⟩
  rintro before part behind rfl place store hs kept
  have hpart : ∀ call ∈ part, call.IsPlain := fun call hc =>
    plain call (List.mem_append_left _ (List.mem_append_right _ hc))
  have hpairs := history_pairwise (after_coherent coherent before) hpart
    (storeNames_plain store hs).nonempty kept
  refine hpairs.imp fun {earlier later} hopens => ?_
  have hrefused : earlier.Makes place ∨ earlier.Opens place store → later.IsRefused place :=
    fun h => hopens (h.elim (fun hmakes => hmakes.opens hs) id)
  exact ⟨hrefused, fun ⟨hmakes, hmakes'⟩ => (hrefused (.inl hmakes)).not_makes hmakes'⟩

/-! ### The least request again and again -/

/-- The directory of the instance of the least request. -/
def leastDirectory : Path := ['/', 'd', '/', 'g', 'e', 't', 'h']

def leastPlace : Location := [['d'], defaultName]

/-- The first run on an empty disk makes the instance. -/
theorem makes_least : Event.Makes ⟨⟨{}, 0⟩, .create 0 leastRequest⟩ leastPlace := by
  have hisOk : (create ⟨{}, 0⟩ 0 leastRequest).1.isOk := by decide +kernel
  obtain ⟨receipt, hok⟩ := exists_ok_of_isOk hisOk
  exact ⟨0, leastRequest, leastDirectory, ⟨rfl, rfl, rfl⟩, receipt, hok⟩

theorem Event.not_removes_of_create {host : Host} {clock : Int} {request : Request}
    {target : Location} : ¬ Event.Removes ⟨host, .create clock request⟩ target := by
  rintro ⟨receipt, hcall, -⟩
  cases hcall

/-- Removing something in a directory does not remove the directory. -/
theorem Event.not_removes_of_below {host : Host} {receipt : Receipt} {target : Location}
    {name : Name} (h : host.disk.locate receipt.dataDirectory = .ok (target ++ [name])) :
    ¬ Event.Removes ⟨host, .delete receipt⟩ target := by
  rintro ⟨_, ⟨⟩, ⟨location, hlocate, -, hbelow⟩, -⟩
  rw [h] at hlocate
  cases hlocate
  have hlength := hbelow.length_le
  rw [List.length_append, List.length_singleton] at hlength
  exact absurd hlength (Nat.not_succ_le_self _)

/-- The least request twice in a row. -/
def twice : List Call := [.create 0 leastRequest, .create 0 leastRequest]

/-- The second run is refused. -/
theorem history_instances_twice : (∀ call ∈ twice, call.IsPlain) ∧
    (create leastHost 0 leastRequest).1 = .error (.failed (.notEmpty leastDirectory)) := by
  have hplain : ∀ call ∈ twice, call.IsPlain := by
    intro call hc
    rw [List.eq_of_mem_replicate (show call ∈ List.replicate 2 _ from hc)]
    exact (by decide : leastRequest.name.IsPlain)
  have hkept : ∀ event ∈ history ⟨{}, 0⟩ twice, ¬ event.Removes (leastPlace ++ [fullStore]) := by
    intro event he
    rcases List.mem_cons.mp he with rfl | he
    · exact Event.not_removes_of_create
    · rw [List.mem_singleton.mp he]
      exact Event.not_removes_of_create
  obtain ⟨-, hparts⟩ := @history_instances ⟨{}, 0⟩ twice Disk.coherent_empty hplain
  have hpairs := hparts [] twice [] rfl leastPlace fullStore (List.mem_cons_self ..) hkept
  have hsecond := ((List.pairwise_cons.mp hpairs).1 _ (List.mem_singleton.mpr rfl)).1
    (.inl makes_least)
  exact ⟨hplain, hsecond 0 leastRequest leastDirectory ⟨rfl, by decide +kernel, rfl⟩⟩

/-! ### How far this goes

Until a directory around it is removed, not every run for an instance that has been made is refused
as not empty: its stores may be removed one by one, and the path to it may be too long. -/

/-- If the event is a run for the instance at a place, it is refused as not empty. -/
def Event.EndsNotEmpty (event : Event) (place : Location) : Prop :=
  ∀ clock request directory, event.IsRun place clock request directory →
    (create event.host clock request).1 = .error (.failed (.notEmpty directory))

/-- Not every run for an instance that has been made is refused as not empty, although no call
removes the directory of the instance. -/
def Escapes (calls : List Call) (place : Location) : Prop :=
  (∀ call ∈ calls, call.IsPlain) ∧
    (∀ event ∈ history ⟨{}, 0⟩ calls, ¬ event.Removes place) ∧
      ¬ (history ⟨{}, 0⟩ calls).Pairwise fun earlier later =>
        earlier.Makes place → later.EndsNotEmpty place

/-- Makes an instance, removes its stores, and makes it again. -/
def emptying : List Call :=
  [.create 0 leastRequest, .delete ⟨Path.join leastDirectory fullStore, []⟩,
    .delete ⟨Path.join leastDirectory lightStore, []⟩, .create 0 leastRequest]

/-- Makes an instance, and asks for it again by a path that is too long with the name of the
instance behind it. -/
def lengthening : List Call := [.create 0 leastRequest, .create 0 (roundaboutRequest 1363)]

theorem escapes_emptying : Escapes emptying leastPlace := by
  have hleast : leastRequest.name.IsPlain := by decide
  refine ⟨?_, ?_, fun hpairs => ?_⟩
  · simp [emptying, Call.IsPlain, hleast]
  · intro event he
    rcases List.mem_cons.mp he with rfl | he
    · exact Event.not_removes_of_create
    rcases List.mem_cons.mp he with rfl | he
    · exact @Event.not_removes_of_below _ _ leastPlace fullStore (by decide +kernel)
    rcases List.mem_cons.mp he with rfl | he
    · exact @Event.not_removes_of_below _ _ leastPlace lightStore (by decide +kernel)
    · rw [List.mem_singleton.mp he]
      exact Event.not_removes_of_create
  · have hagain : (create (after ⟨{}, 0⟩ (emptying.take 3)) 0 leastRequest).1.isOk := by
      decide +kernel
    have hlast := (List.pairwise_cons.mp hpairs).1
      ⟨after ⟨{}, 0⟩ (emptying.take 3), .create 0 leastRequest⟩
      (List.mem_of_getLast? rfl) makes_least
    rw [hlast 0 leastRequest leastDirectory ⟨rfl, by decide +kernel, rfl⟩] at hagain
    cases hagain

theorem escapes_lengthening : Escapes lengthening leastPlace := by
  have hleast : leastRequest.name.IsPlain := by decide
  have hshort : 3 * 1363 + 2 < Disk.pathBound := by decide
  have hlong : Disk.pathBound ≤ 3 * 1363 + 7 := by decide
  refine ⟨?_, ?_, fun hpairs => ?_⟩
  · simp [lengthening, Call.IsPlain, roundaboutRequest, hleast]
  · intro event he
    rcases List.mem_cons.mp he with rfl | he
    · exact Event.not_removes_of_create
    · rw [List.mem_singleton.mp he]
      exact Event.not_removes_of_create
  · have hplain : (roundaboutRequest 1363).name.IsPlain := hleast
    have hthere : leastHost.disk.entry? [['d']] = some .directory := by decide +kernel
    have hnamed := directory?_roundabout 1363 hshort hthere
    have hplace := directoryPlace_roundabout 1363
    have hfull : leastHost.disk.hasEntries
        (directoryPlace (roundabout 1363 ++ '/' :: defaultName)) := by
      rw [hplace]
      decide +kernel
    have hends := create_occupied leastHost_coherent 0 hplain hnamed hfull
    have hsecond := (List.pairwise_cons.mp hpairs).1
      ⟨leastHost, .create 0 (roundaboutRequest 1363)⟩ (List.mem_singleton.mpr rfl) makes_least
    rw [hsecond 0 (roundaboutRequest 1363) _ ⟨rfl, hnamed, hplace⟩,
      occupiedError_roundabout 1363 hlong] at hends
    cases hends

/-- **Two ways to escape.** -/
theorem escapes : Escapes emptying leastPlace ∧ Escapes lengthening leastPlace :=
  ⟨escapes_emptying, escapes_lengthening⟩

end Provision.Instance

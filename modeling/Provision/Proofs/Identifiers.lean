import Mathlib.Data.List.Pairwise
import Mathlib.Logic.Function.Basic
import Provision.Proofs.Hexadecimal
import Provision.Proofs.History

/-! Identifiers that are asked for at the same time.

A call reads the clock, brings the last identifier up to date in one step, and works out once more
what it has stored, from the identifier that it has found. Between these steps other calls may do
theirs, in any order, and the clock may say anything. The invariant is `Sound`: each call has
updated once and knows what it has stored, and each update goes on from the one before.
`identifiers_rise` says what follows for the calls, and for runs that make instances one after the
other. -/
namespace Provision

namespace Identifier

/-! ### Rising -/

/-- A number is no less than another, and greater unless that is the greatest. -/
def Rises (number next : UInt64) : Prop :=
  number ≤ next ∧ (number < greatest → number < next)

theorem toNat_greatest : greatest.toNat = 2 ^ 64 - 1 := by decide

theorem toNat_after (last : UInt64) : (after last).toNat = min (last.toNat + 1) (2 ^ 64 - 1) := by
  have hlast : last.toNat < 2 ^ 64 := last.toNat_lt_size
  rw [after]
  by_cases h : last = greatest
  · rw [if_pos h, h, toNat_greatest]
    rfl
  · have hne : last.toNat ≠ 2 ^ 64 - 1 := by
      rw [← toNat_greatest]
      exact fun he => h (UInt64.toNat_inj.mp he)
    rw [if_neg h, UInt64.toNat_add, UInt64.toNat_one]
    omega

theorem le_greatest (number : UInt64) : number ≤ greatest := by
  have hnumber : number.toNat < 2 ^ 64 := number.toNat_lt_size
  rw [UInt64.le_iff_toNat_le, toNat_greatest]
  omega

theorem Rises.of_le {number middle next : UInt64} (h : number ≤ middle) (h' : Rises middle next) :
    Rises number next := by
  refine ⟨UInt64.le_trans h h'.1, fun hless => ?_⟩
  by_cases hmiddle : middle < greatest
  · exact UInt64.lt_of_le_of_lt h (h'.2 hmiddle)
  · exact UInt64.lt_of_lt_of_le hless (UInt64.le_trans (UInt64.not_lt.mp hmiddle) h'.1)

theorem Rises.eq_greatest {number : UInt64} (h : Rises number number) : number = greatest := by
  by_contra hne
  exact UInt64.lt_irrefl _ (h.2 (UInt64.lt_of_le_of_ne (le_greatest number) hne))

theorem after_le_next (now last : UInt64) : after last ≤ next now last := by
  show after last ≤ if now ≤ after last then after last else now
  by_cases h : now ≤ after last
  · rw [if_pos h]
    exact UInt64.le_refl _
  · rw [if_neg h]
    exact UInt64.le_of_lt (UInt64.not_le.mp h)

/-- Whatever the clock says, the next identifier rises above the last one. -/
theorem rises_next (now last : UInt64) : Rises last (next now last) := by
  have hlast : last.toNat < 2 ^ 64 := last.toNat_lt_size
  have hafter := toNat_after last
  have hnext := UInt64.le_iff_toNat_le.mp (after_le_next now last)
  constructor
  · rw [UInt64.le_iff_toNat_le]
    omega
  · intro hless
    rw [UInt64.lt_iff_toNat_lt, toNat_greatest] at hless
    rw [UInt64.lt_iff_toNat_lt]
    omega

/-! ### Calls at the same time -/

/-- How far a call has come. -/
inductive Phase
  | called
  | timed (now : UInt64)
  /-- `previous` is the last identifier as the update has found it. -/
  | updated (now previous : UInt64)
  | returned (id : UInt64)
deriving DecidableEq

/-- The last identifier, and how far each call has come. -/
structure State where
  last : UInt64
  phases : Nat → Phase

/-- The turn of a call, with what the clock says at that moment. -/
structure Turn where
  call : Nat
  reading : Int

/-- What a call has done to the last identifier. -/
structure Update where
  call : Nat
  previous : UInt64
  stored : UInt64
deriving DecidableEq

namespace State

/-- No call has had a turn yet. -/
def start (last : UInt64) : State :=
  ⟨last, fun _ => .called⟩

def setPhase (state : State) (call : Nat) (phase : Phase) : State :=
  { state with phases := Function.update state.phases call phase }

/-- A call takes its next step, if there is one left. -/
def step (state : State) (turn : Turn) : State :=
  match state.phases turn.call with
  | .called => state.setPhase turn.call (.timed (ofClock turn.reading))
  | .timed now =>
    { state.setPhase turn.call (.updated now state.last) with last := next now state.last }
  | .updated now previous => state.setPhase turn.call (.returned (max now (after previous)))
  | .returned _ => state

def run (state : State) (turns : List Turn) : State :=
  turns.foldl step state

/-- The update that a turn is, if it is one. -/
def update? (state : State) (turn : Turn) : Option Update :=
  match state.phases turn.call with
  | .timed now => some ⟨turn.call, state.last, next now state.last⟩
  | .called | .updated _ _ | .returned _ => none

/-- The updates of a run, in their order. -/
def updates (state : State) : List Turn → List Update
  | [] => []
  | turn :: turns => (state.update? turn).toList ++ (state.step turn).updates turns

@[simp] theorem setPhase_last (state : State) (call : Nat) (phase : Phase) :
    (state.setPhase call phase).last = state.last := rfl

@[simp] theorem setPhase_phases_self (state : State) (call : Nat) (phase : Phase) :
    (state.setPhase call phase).phases call = phase :=
  Function.update_self ..

@[simp] theorem setPhase_phases_of_ne (state : State) {call other : Nat} (h : other ≠ call)
    (phase : Phase) : (state.setPhase call phase).phases other = state.phases other :=
  Function.update_of_ne h ..

end State

/-- What the phase of a call says of its updates. -/
def Phase.Tells (call : Nat) : Phase → List Update → Prop
  | .called, own | .timed _, own => own = []
  | .updated now previous, own => own = [⟨call, previous, next now previous⟩]
  | .returned id, own => ∃ previous, own = [⟨call, previous, id⟩]

/-- Two calls have stored different numbers, or both the greatest. -/
def Update.Apart (update other : Update) : Prop :=
  update.call ≠ other.call → update.stored = other.stored → other.stored = greatest

instance : Std.Symm Update.Apart where
  symm := fun _ _ h hne heq => heq ▸ h (Ne.symm hne) heq.symm

/-- The updates in a list that are those of a call. -/
def updatesOf (call : Nat) (log : List Update) : List Update :=
  log.filter (·.call == call)

/-- What holds after some turns, with the updates that they were. -/
structure Sound (first : UInt64) (state : State) (log : List Update) : Prop where
  tells : ∀ call, (state.phases call).Tells call (updatesOf call log)
  ordered : log.Pairwise fun earlier later => earlier.stored ≤ later.previous
  between : ∀ update ∈ log, first ≤ update.previous ∧ update.stored ≤ state.last
  rises : ∀ update ∈ log, Rises update.previous update.stored
  last : first ≤ state.last

namespace Sound

variable {first : UInt64} {state : State} {log : List Update}

theorem start (first : UInt64) : Sound first (.start first) [] where
  tells := fun _ => rfl
  ordered := .nil
  between := fun _ h => (nomatch h)
  rises := fun _ h => (nomatch h)
  last := UInt64.le_refl _

/-- A call may go on to a phase that says the same. -/
theorem setPhase (h : Sound first state log) {call : Nat} {phase : Phase}
    (tells : phase.Tells call (updatesOf call log)) :
    Sound first (state.setPhase call phase) log where
  tells := fun other => by
    by_cases hcall : other = call
    · rw [hcall, State.setPhase_phases_self]
      exact tells
    · rw [State.setPhase_phases_of_ne state hcall]
      exact h.tells other
  ordered := h.ordered
  between := h.between
  rises := h.rises
  last := h.last

/-- An update goes on from all those before it. -/
theorem update (h : Sound first state log) {turn : Turn} {now : UInt64}
    (timed : state.phases turn.call = .timed now) :
    Sound first (state.step turn) (log ++ [⟨turn.call, state.last, next now state.last⟩]) := by
  have hrises := rises_next now state.last
  have hlast : (state.step turn).last = next now state.last := by
    rw [State.step, timed]
  have hphases : (state.step turn).phases =
      (state.setPhase turn.call (.updated now state.last)).phases := by
    rw [State.step, timed]
  constructor
  case tells =>
    intro call
    have htells := h.tells call
    rw [hphases, updatesOf, List.filter_append]
    by_cases hcall : call = turn.call
    · subst hcall
      rw [timed] at htells
      rw [State.setPhase_phases_self, show log.filter (·.call == turn.call) = [] from htells]
      simp [Phase.Tells]
    · rw [State.setPhase_phases_of_ne state hcall]
      simpa [updatesOf, Ne.symm hcall] using htells
  case ordered =>
    refine List.pairwise_append.mpr ⟨h.ordered, List.pairwise_singleton .., ?_⟩
    intro earlier hearlier later hlater
    rw [List.mem_singleton.mp hlater]
    exact (h.between earlier hearlier).2
  case between =>
    intro update hu
    rw [hlast]
    rcases List.mem_append.mp hu with hu | hu
    · exact ⟨(h.between update hu).1, UInt64.le_trans (h.between update hu).2 hrises.1⟩
    · rw [List.mem_singleton.mp hu]
      exact ⟨h.last, UInt64.le_refl _⟩
  case rises =>
    intro update hu
    rcases List.mem_append.mp hu with hu | hu
    · exact h.rises update hu
    · rw [List.mem_singleton.mp hu]
      exact hrises
  case last =>
    rw [hlast]
    exact UInt64.le_trans h.last hrises.1

theorem step (h : Sound first state log) (turn : Turn) :
    Sound first (state.step turn) (log ++ (state.update? turn).toList) := by
  have htells := h.tells turn.call
  cases hphase : state.phases turn.call with
  | timed now =>
    simp only [State.update?, hphase]
    exact h.update hphase
  | called =>
    rw [hphase] at htells
    simp only [State.step, State.update?, hphase, Option.toList_none, List.append_nil]
    exact h.setPhase htells
  | updated now previous =>
    rw [hphase] at htells
    simp only [State.step, State.update?, hphase, Option.toList_none, List.append_nil]
    -- The number that is worked out once more is the one that has been stored.
    exact h.setPhase ⟨previous, htells⟩
  | returned id =>
    simp only [State.step, State.update?, hphase, Option.toList_none, List.append_nil]
    exact h

theorem run (h : Sound first state log) (turns : List Turn) :
    Sound first (state.run turns) (log ++ state.updates turns) := by
  induction turns generalizing state log with
  | nil =>
    rw [State.updates, List.append_nil]
    exact h
  | cons turn turns ih =>
    rw [State.updates, ← List.append_assoc]
    exact ih (h.step turn)

/-- A number that is stored later rises above one that is stored earlier. -/
theorem pairwise_rises (h : Sound first state log) :
    log.Pairwise fun earlier later => Rises earlier.stored later.stored :=
  h.ordered.imp_of_mem fun _ hlater hle => .of_le hle (h.rises _ hlater)

theorem apart (h : Sound first state log) :
    ∀ update ∈ log, ∀ other ∈ log, update.Apart other := by
  refine List.Pairwise.forall_of_forall (fun update _ hne => absurd rfl hne) ?_
  refine h.pairwise_rises.imp fun hrises _ heq => ?_
  rw [heq] at hrises
  exact hrises.eq_greatest

end Sound

/-! ### Calls that return -/

/-- How many turns it takes a call to come to a phase. -/
def Phase.turns : Phase → Nat
  | .called => 0
  | .timed _ => 1
  | .updated _ _ => 2
  | .returned _ => 3

namespace State

theorem turns_step (state : State) (turn : Turn) (call : Nat) :
    ((state.step turn).phases call).turns =
      min 3 ((state.phases call).turns + if turn.call = call then 1 else 0) := by
  have hmost : (state.phases call).turns ≤ 3 := by
    cases state.phases call <;> simp [Phase.turns]
  by_cases hcall : turn.call = call
  · subst hcall
    rw [if_pos rfl, step]
    cases hphase : state.phases turn.call <;> simp [Phase.turns, hphase]
  · rw [if_neg hcall, Nat.add_zero, Nat.min_eq_right hmost, step]
    cases state.phases turn.call <;> simp [Ne.symm hcall]

theorem turns_run (state : State) (turns : List Turn) (call : Nat) :
    ((state.run turns).phases call).turns =
      min 3 ((state.phases call).turns + turns.countP (·.call = call)) := by
  induction turns generalizing state with
  | nil =>
    cases hphase : state.phases call <;> simp [run, Phase.turns, hphase]
  | cons turn turns ih =>
    rw [show state.run (turn :: turns) = (state.step turn).run turns from rfl, ih, turns_step,
      List.countP_cons]
    simp only [decide_eq_true_eq]
    omega

end State

theorem Phase.exists_returned {phase : Phase} (h : phase.turns = 3) :
    ∃ id, phase = .returned id := by
  cases phase with
  | returned id => exact ⟨id, rfl⟩
  | called | timed | updated => cases h

/-- What is promised of calls that take turns, when the last identifier was `last` at first. -/
structure Orderly (last : UInt64) (turns : List Turn) : Prop where
  /-- A call returns by its third turn. -/
  returns : ∀ call, 3 ≤ turns.countP (·.call = call) →
    ∃ id, ((State.start last).run turns).phases call = .returned id
  /-- A call that has returned has made one update, and returned what it stored. -/
  own : ∀ call id, ((State.start last).run turns).phases call = .returned id →
    ∃ previous, updatesOf call ((State.start last).updates turns) = [⟨call, previous, id⟩]
  rises : ∀ update ∈ (State.start last).updates turns,
    last ≤ update.previous ∧ Rises update.previous update.stored
  /-- What is stored is no less than anything stored before, and greater unless the last
  identifier was the greatest. -/
  ordered : ((State.start last).updates turns).Pairwise fun earlier later =>
    earlier.stored ≤ later.previous ∧ earlier.stored ≤ later.stored ∧
      (later.previous < greatest → earlier.stored < later.stored)
  distinct : ∀ call other id, call ≠ other →
    ((State.start last).run turns).phases call = .returned id →
      ((State.start last).run turns).phases other = .returned id → id = greatest

theorem orderly (last : UInt64) (turns : List Turn) : Orderly last turns := by
  have hsound : Sound last ((State.start last).run turns) ((State.start last).updates turns) :=
    (Sound.start last).run turns
  have hown : ∀ call id, ((State.start last).run turns).phases call = .returned id →
      ∃ previous, updatesOf call ((State.start last).updates turns) = [⟨call, previous, id⟩] := by
    intro call id hreturned
    have htells := hsound.tells call
    rw [hreturned] at htells
    exact htells
  have hmem : ∀ call id, ((State.start last).run turns).phases call = .returned id →
      ∃ previous, ⟨call, previous, id⟩ ∈ (State.start last).updates turns := by
    intro call id hreturned
    obtain ⟨previous, hupdates⟩ := hown call id hreturned
    exact ⟨previous, List.mem_of_mem_filter (hupdates ▸ List.mem_singleton_self _)⟩
  constructor
  case returns =>
    intro call hcount
    refine Phase.exists_returned ?_
    rw [State.turns_run]
    exact Nat.min_eq_left (Nat.le_trans hcount (Nat.le_add_left ..))
  case own => exact hown
  case rises =>
    intro update hu
    exact ⟨(hsound.between update hu).1, hsound.rises update hu⟩
  case ordered =>
    refine hsound.ordered.imp_of_mem fun _ hlater hle => ?_
    have hrises := hsound.rises _ hlater
    exact ⟨hle, UInt64.le_trans hle hrises.1,
      fun hless => UInt64.lt_of_le_of_lt hle (hrises.2 hless)⟩
  case distinct =>
    intro call other id hne hcall hother
    obtain ⟨previous, hu⟩ := hmem call id hcall
    obtain ⟨previous', hu'⟩ := hmem other id hother
    exact hsound.apart _ hu _ hu' hne rfl

/-- Without turns of others in between, a call gives out the next identifier. -/
theorem run_uninterrupted (state : State) {call : Nat} (called : state.phases call = .called)
    (reading second third : Int) :
    ∃ after, state.run [⟨call, reading⟩, ⟨call, second⟩, ⟨call, third⟩] = after ∧
      after.last = next (ofClock reading) state.last ∧
        after.phases call = .returned (next (ofClock reading) state.last) := by
  refine ⟨_, rfl, ?_⟩
  simp [State.run, State.step, called, next]

end Identifier

namespace Instance
open Identifier

/-! ### Runs one after the other -/

theorem create_cases (host : Host) (clock : Int) (request : Request) :
    (∃ e host', create host clock request = (.error e, host') ∧ host'.lastId = host.lastId) ∨
      ∃ receipt host', create host clock request = (.ok receipt, host') ∧
        host'.lastId = next (ofClock clock) host.lastId ∧
          receipt.id = Numeral.decimal host'.lastId.toNat := by
  rw [create]
  rcases provision host.disk request with ⟨e | whole, after⟩
  · exact .inl ⟨_, _, rfl, rfl⟩
  · exact .inr ⟨_, _, rfl, rfl, rfl⟩

/-- What a call returns, if it is a run that has gone through. -/
def Event.receipt? (event : Event) : Option Receipt :=
  match event.call with
  | .create clock request => (create event.host clock request).1.toOption
  | .delete _ => none

/-- What the runs among calls return. -/
def receipts (host : Host) (calls : List Call) : List Receipt :=
  (history host calls).filterMap Event.receipt?

/-- A call changes the last identifier exactly if it returns one. -/
theorem receipt?_cases (host : Host) (call : Call) :
    Event.receipt? ⟨host, call⟩ = none ∧ (call.run host).lastId = host.lastId ∨
      ∃ receipt, Event.receipt? ⟨host, call⟩ = some receipt ∧
        Rises host.lastId (call.run host).lastId ∧
          receipt.id = Numeral.decimal (call.run host).lastId.toNat := by
  cases call with
  | delete receipt => exact .inl ⟨rfl, rfl⟩
  | create clock request =>
    simp only [Event.receipt?, Call.run]
    rcases create_cases host clock request with
      ⟨e, host', hcreate, hlast⟩ | ⟨receipt, host', hcreate, hlast, hid⟩
    · rw [hcreate]
      exact .inl ⟨rfl, hlast⟩
    · rw [hcreate]
      refine .inr ⟨receipt, rfl, ?_, hid⟩
      rw [hlast]
      exact rises_next _ _

/-- The identifiers of runs rise. -/
theorem receipts_rise (host : Host) (calls : List Call) :
    ∃ ids : List UInt64,
      (receipts host calls).map Receipt.id = ids.map (fun id => Numeral.decimal id.toNat) ∧
        (host.lastId :: ids).Pairwise Rises := by
  induction calls generalizing host with
  | nil => exact ⟨[], rfl, List.pairwise_singleton ..⟩
  | cons call calls ih =>
    obtain ⟨ids, hids, hrise⟩ := ih (call.run host)
    have hcons : receipts host (call :: calls) =
        (Event.receipt? ⟨host, call⟩).toList ++ receipts (call.run host) calls := by
      rw [receipts, history, List.filterMap_cons]
      cases Event.receipt? ⟨host, call⟩ <;> rfl
    rw [hcons]
    rcases receipt?_cases host call with ⟨hnone, hlast⟩ | ⟨receipt, hsome, hrises, hid⟩
    · rw [hnone]
      exact ⟨ids, hids, hlast ▸ hrise⟩
    · rw [hsome]
      refine ⟨(call.run host).lastId :: ids, ?_, List.pairwise_cons.mpr ⟨?_, hrise⟩⟩
      · rw [Option.toList_some, List.singleton_append, List.map_cons, List.map_cons, hids, hid]
      · intro id hmem
        rcases List.mem_cons.mp hmem with rfl | hmem
        · exact hrises
        · exact .of_le hrises.1 (List.rel_of_pairwise_cons hrise hmem)

/-- Two runs get the same identifier only if it is the greatest. -/
theorem receipts_distinct (host : Host) (calls : List Call) :
    (receipts host calls).Pairwise fun earlier later =>
      earlier.id = later.id → later.id = Numeral.decimal greatest.toNat := by
  obtain ⟨ids, hids, hrise⟩ := receipts_rise host calls
  have hpairs : ((receipts host calls).map Receipt.id).Pairwise fun earlier later =>
      earlier = later → later = Numeral.decimal greatest.toNat := by
    rw [hids, List.pairwise_map]
    refine (List.pairwise_cons.mp hrise).2.imp fun {id next} h heq => ?_
    have hread := Numeral.readUInt64_decimal id
    rw [heq, Numeral.readUInt64_decimal next] at hread
    cases hread
    rw [h.eq_greatest]
  exact List.pairwise_map.mp hpairs

/-- **Calls that ask for identifiers at the same time get what they have stored, each a greater
number than all those before it until there is none left, in whatever order they take their steps
and whatever the clock says. A run asks as such a call, with no other in between, so two runs
never get the same identifier before the greatest one.** -/
theorem identifiers_rise :
    (∀ last turns, Orderly last turns) ∧
      (∀ host clock request receipt host', create host clock request = (.ok receipt, host') →
        receipt.id = Numeral.decimal host'.lastId.toNat ∧
          ∀ second third, ∃ state,
            (State.start host.lastId).run [⟨0, clock⟩, ⟨0, second⟩, ⟨0, third⟩] = state ∧
              state.last = host'.lastId ∧ state.phases 0 = .returned host'.lastId) ∧
      ∀ host calls, (receipts host calls).Pairwise fun earlier later =>
        earlier.id = later.id → later.id = Numeral.decimal greatest.toNat := by
  refine ⟨orderly, ?_, receipts_distinct⟩
  intro host clock request receipt host' hcreate
  rcases create_cases host clock request with
    ⟨_, _, hfailed, -⟩ | ⟨_, _, hdone, hlast, hid⟩
  · rw [hfailed] at hcreate
    cases hcreate
  · rw [hdone] at hcreate
    cases hcreate
    rw [hlast] at hid ⊢
    exact ⟨hid, run_uninterrupted (.start host.lastId) rfl clock⟩

/-- The second call reads an earlier time than the first, and updates after it. -/
theorem identifiers_rise_backwards :
    let state := (State.start 0).run [⟨0, 7⟩, ⟨1, 3⟩, ⟨0, 0⟩, ⟨1, 0⟩, ⟨1, 0⟩, ⟨0, 0⟩]
    state.phases 0 = .returned 7 ∧ state.phases 1 = .returned 8 ∧
      ∃ previous, updatesOf 1 ((State.start 0).updates
        [⟨0, 7⟩, ⟨1, 3⟩, ⟨0, 0⟩, ⟨1, 0⟩, ⟨1, 0⟩, ⟨0, 0⟩]) = [⟨1, previous, 8⟩] := by
  have hone : ((State.start 0).run [⟨0, 7⟩, ⟨1, 3⟩, ⟨0, 0⟩, ⟨1, 0⟩, ⟨1, 0⟩, ⟨0, 0⟩]).phases 1 =
      .returned 8 := by decide
  exact ⟨by decide, hone, (identifiers_rise.1 0 _).own 1 8 hone⟩

end Instance
end Provision

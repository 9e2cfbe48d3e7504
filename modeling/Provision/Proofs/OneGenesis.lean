import Provision.Proofs.Setup

/-! When a store keeps to one genesis block.

A store that starts empty is set up with one document after another. `setup` looks for a block
under number zero, but writes the block under the number of the document. So the store keeps
to the block that it gets first, and refuses any other, exactly if a document of number zero
has been written before the first document with another hash comes: `holdsOne_iff`. -/
namespace Provision

/-- A call of `setup`, with the store before it and after it. -/
structure SetupCall where
  genesis : Genesis
  before : Store
  outcome : Except SetupError (ChainConfig × Hash)
  after : Store

/-- Sets a store up with one document after another. The store may accept another number of
transactions at each call. -/
def Store.setups (store : Store) : List (Genesis × Allowance) → List SetupCall
  | [] => []
  | (genesis, allowance) :: rest =>
    let before := { store with allowance }
    let (outcome, after) := before.setup genesis
    ⟨genesis, before, outcome, after⟩ :: after.setups rest

theorem Store.setups_cons (store : Store) (genesis : Genesis) (allowance : Allowance)
    (rest : List (Genesis × Allowance)) :
    store.setups ((genesis, allowance) :: rest) =
      ⟨genesis, { store with allowance }, (Store.setup { store with allowance } genesis).1,
          (Store.setup { store with allowance } genesis).2⟩ ::
        (Store.setup { store with allowance } genesis).2.setups rest :=
  rfl

/-- Is there a block with a hash in the store? -/
def Store.HasBlock (store : Store) (hash : Hash) : Prop :=
  (store.table.find? (Key.numberOf hash).encode).isSome

namespace SetupCall

/-- The hash that a call returns, if it succeeds. -/
def hash? (call : SetupCall) : Option Hash := call.outcome.toOption.map Prod.snd

/-- The store has the block with the hash `stored`, refuses the document and stays as it is. -/
structure IsRefused (call : SetupCall) (stored : Hash) : Prop where
  outcome : call.outcome = .error (.mismatch stored call.genesis.hash)
  after : call.after = call.before

/-- What a call owes when a block with this hash is the one of the store. -/
structure Keeps (hash : Hash) (call : SetupCall) : Prop where
  returned : ∀ other, call.hash? = some other → other = hash
  refused : call.genesis.hash ≠ hash → call.IsRefused hash
  blocks : ∀ other, call.after.HasBlock other → other = hash

end SetupCall

/-- The first call that succeeds, and the calls after it. -/
def firstWritten? : List SetupCall → Option (SetupCall × List SetupCall)
  | [] => none
  | call :: rest => if call.hash?.isSome then some (call, rest) else firstWritten? rest

/-- The block of the first document that is written is the only one that the store ever has. -/
def HoldsOne (calls : List SetupCall) : Prop :=
  ∀ first later, firstWritten? calls = some (first, later) →
    first.hash? = some first.genesis.hash ∧
      (∀ hash, first.after.HasBlock hash → hash = first.genesis.hash) ∧
      ∀ call ∈ later, call.Keeps first.genesis.hash

/-- Only documents with this hash come, until one of number zero has been written. -/
def AgreesUntilZero (hash : Hash) : List SetupCall → Prop
  | [] => True
  | call :: rest =>
    call.genesis.hash = hash ∧
      ((call.hash?.isSome ∧ call.genesis.number = 0) ∨ AgreesUntilZero hash rest)

/-- The first document that is written has number zero, or no document with another hash comes
before one of number zero has been written. -/
def ZeroComesFirst (calls : List SetupCall) : Prop :=
  ∀ first later, firstWritten? calls = some (first, later) →
    first.genesis.number = 0 ∨ AgreesUntilZero first.genesis.hash later

namespace Store

variable {store : Store}

/-! ### The blocks of a store -/

theorem hasBlock_written_batch {genesis : Genesis} {left : Allowance} {hash : Hash}
    (h : (store.written left (.batch genesis.entries)).HasBlock hash) :
    hash = genesis.hash ∨ store.HasBlock hash := by
  rw [HasBlock, find?_written_batch] at h
  by_cases he : genesis.hash = hash
  · exact .inl he.symm
  · have hnone : Dictionary.find? (Key.numberOf hash)
        (genesis.recordsWith genesis.chainConfig.bytes) = none := by
      have hne : genesis.header.hash ≠ hash := he
      simp [Genesis.recordsWith, Dictionary.find?_cons, hne]
    rw [hnone, Option.none_or] at h
    exact .inr h

theorem hasBlock_written_config {other hash : Hash} {value : Bytes} {left : Allowance}
    (h : (store.written left (.put (Key.config other).encode value)).HasBlock hash) :
    store.HasBlock hash := by
  rw [HasBlock, find?_written_put, if_neg (by simp)] at h
  exact h

/-! ### While nothing stands under number zero -/

/-- A store that can be read, has nothing under number zero, and no block but the one with this
hash. -/
structure Loose (hash : Hash) (store : Store) : Prop where
  readable : store.readError? = none
  anchor : store.anchor? = none
  blocks : ∀ other, store.HasBlock other → other = hash

/-- A store that can be read, has this hash under number zero, and no block but the one with
it. -/
structure Anchored (hash : Hash) (store : Store) : Prop where
  readable : store.readError? = none
  anchor : store.anchor? = some hash.bytes
  blocks : ∀ other, store.HasBlock other → other = hash

/-- A document with the right hash may fail. -/
theorem keeps_of_error {genesis : Genesis}
    (blocks : ∀ other, store.HasBlock other → other = genesis.hash) (error : SetupError) :
    SetupCall.Keeps genesis.hash ⟨genesis, store, .error error, store⟩ where
  returned := fun _ hr => nomatch hr
  refused := fun hne => absurd rfl hne
  blocks := blocks

/-- A document with the right hash may succeed. -/
theorem keeps_of_ok (store : Store) {genesis : Genesis} {after : Store}
    (blocks : ∀ other, after.HasBlock other → other = genesis.hash) (config : ChainConfig) :
    SetupCall.Keeps genesis.hash ⟨genesis, store, .ok (config, genesis.hash), after⟩ where
  returned := fun _ hr => (Option.some.inj hr).symm
  refused := fun hne => absurd rfl hne
  blocks := blocks

/-- An anchored store keeps to its block, whatever comes. -/
theorem Anchored.setup {hash : Hash} (h : Anchored hash store) (genesis : Genesis) :
    Anchored hash (store.setup genesis).2 ∧
      SetupCall.Keeps hash ⟨genesis, store, (store.setup genesis).1, (store.setup genesis).2⟩ := by
  by_cases he : genesis.hash = hash
  · subst he
    rcases setup_same_cases genesis h.readable h.anchor with ⟨-, hs⟩ | ⟨left, -, hs⟩
    · rw [hs]
      exact ⟨h, keeps_of_error h.blocks _⟩
    · have hanchor := anchor?_written_config store left genesis.hash genesis.chainConfig.bytes
      have hblocks : ∀ other, (store.written left (.put (Key.config genesis.hash).encode
          genesis.chainConfig.bytes)).HasBlock other → other = genesis.hash :=
        fun other hb => h.blocks other (hasBlock_written_config hb)
      rw [hs]
      exact ⟨⟨readError?_written h.readable _ _, hanchor.trans h.anchor, hblocks⟩,
        keeps_of_ok store hblocks _⟩
  · rw [setup_of_other genesis h.readable h.anchor he]
    refine ⟨h, ?_, fun _ => ⟨rfl, rfl⟩, h.blocks⟩
    intro _ hr
    cases hr

theorem Anchored.setups {hash : Hash} (h : Anchored hash store)
    (requests : List (Genesis × Allowance)) :
    ∀ call ∈ store.setups requests, call.Keeps hash := by
  induction requests generalizing store with
  | nil => intro call hc; cases hc
  | cons request rest ih =>
    obtain ⟨genesis, allowance⟩ := request
    have hbefore : Anchored hash { store with allowance } := ⟨h.readable, h.anchor, h.blocks⟩
    obtain ⟨hafter, hkeeps⟩ := hbefore.setup genesis
    intro call hc
    rcases List.mem_cons.mp hc with rfl | hc
    · exact hkeeps
    · exact ih hafter call hc

/-- The first block in a store: whether it is anchored hangs on its number. -/
theorem written_batch_cases {genesis : Genesis} (left : Allowance)
    (readable : store.readError? = none) (absent : store.anchor? = none)
    (blocks : ∀ other, store.HasBlock other → other = genesis.hash) :
    genesis.number = 0 ∧ Anchored genesis.hash (store.written left (.batch genesis.entries)) ∨
      genesis.number ≠ 0 ∧ Loose genesis.hash (store.written left (.batch genesis.entries)) := by
  have hblocks : ∀ other, (store.written left (.batch genesis.entries)).HasBlock other →
      other = genesis.hash := fun other hb => (hasBlock_written_batch hb).elim id (blocks other)
  have hanchor := anchor?_written_batch genesis store left
  by_cases hn : genesis.number = 0
  · rw [if_pos hn] at hanchor
    exact .inl ⟨hn, readError?_written readable _ _, hanchor, hblocks⟩
  · rw [if_neg hn, absent] at hanchor
    exact .inr ⟨hn, readError?_written readable _ _, hanchor, hblocks⟩

/-- A loose store writes whatever comes, so it keeps to its block only if nothing else comes
before it is anchored. -/
theorem Loose.keeps_iff {hash : Hash} (h : Loose hash store)
    (requests : List (Genesis × Allowance)) :
    (∀ call ∈ store.setups requests, call.Keeps hash) ↔
      AgreesUntilZero hash (store.setups requests) := by
  induction requests generalizing store with
  | nil => exact ⟨fun _ => trivial, fun _ call hc => nomatch hc⟩
  | cons request rest ih =>
    obtain ⟨genesis, allowance⟩ := request
    have hbefore : Loose hash { store with allowance } := ⟨h.readable, h.anchor, h.blocks⟩
    have hcases := setup_absent_cases genesis hbefore.readable hbefore.anchor
    simp only [setups, AgreesUntilZero, List.forall_mem_cons]
    -- A block with the same hash may anchor the store; one with another hash breaks it.
    by_cases he : genesis.hash = hash
    · subst he
      rcases hcases with ⟨-, hs⟩ | ⟨left, -, hs⟩
      · rw [hs]
        have hkeeps := keeps_of_error hbefore.blocks (.store (.file .writeRefused))
        simp [hkeeps, SetupCall.hash?, ih hbefore, Except.toOption]
      · have hafter := written_batch_cases left hbefore.readable hbefore.anchor hbefore.blocks
        rw [hs]
        rcases hafter with ⟨hn, hafter⟩ | ⟨hn, hafter⟩
        · have hkeeps := keeps_of_ok { store with allowance } hafter.blocks genesis.chainConfig
          simpa [hkeeps, SetupCall.hash?, hn, Except.toOption] using hafter.setups rest
        · have hkeeps := keeps_of_ok { store with allowance } hafter.blocks genesis.chainConfig
          simp [hkeeps, SetupCall.hash?, hn, ih hafter, Except.toOption]
    · constructor
      · rintro ⟨hkeeps, -⟩
        have hrefused := (hkeeps.refused he).outcome
        rcases hcases with ⟨-, hs⟩ | ⟨left, -, hs⟩ <;> rw [hs] at hrefused <;> cases hrefused
      · rintro ⟨hsame, -⟩
        exact absurd hsame he

/-! ### From the empty store on -/

theorem firstWritten?_setups (empty : store.table = []) {requests : List (Genesis × Allowance)}
    {first : SetupCall} {later : List SetupCall}
    (h : firstWritten? (store.setups requests) = some (first, later)) :
    first.hash? = some first.genesis.hash ∧
      (first.genesis.number = 0 ∧ Anchored first.genesis.hash first.after ∨
        first.genesis.number ≠ 0 ∧ Loose first.genesis.hash first.after) ∧
      ∃ rest, later = first.after.setups rest := by
  induction requests generalizing store with
  | nil => cases h
  | cons request rest ih =>
    obtain ⟨genesis, allowance⟩ := request
    let before : Store := { store with allowance }
    have hempty : before.table = [] := empty
    have hnothing : ∀ key, before.table.find? key = none := fun key => by rw [hempty]; rfl
    cases hr : before.readError? with
    | some e =>
      have hs := setup_of_unreadable genesis hr
      rw [setups, hs] at h
      exact ih hempty h
    | none =>
      rcases setup_absent_cases genesis hr (hnothing _) with ⟨-, hs⟩ | ⟨left, -, hs⟩
      · rw [setups, hs] at h
        exact ih hempty h
      · rw [setups, hs] at h
        obtain ⟨rfl, rfl⟩ := Prod.mk.inj (Option.some.inj h)
        have hblocks : ∀ other, before.HasBlock other → other = genesis.hash := by
          intro other hb
          rw [HasBlock, hnothing] at hb
          cases hb
        exact ⟨rfl, written_batch_cases left hr (hnothing _) hblocks, rest, rfl⟩

/-- **A store keeps to its first block exactly if number zero comes first**: before a document
with another hash is seen, one of number zero has to be written. Then every later document
with another hash is refused and changes nothing; otherwise the first such document is written
beside the block that is there. -/
theorem holdsOne_iff (store : Store) (empty : store.table = [])
    (requests : List (Genesis × Allowance)) :
    HoldsOne (store.setups requests) ↔ ZeroComesFirst (store.setups requests) := by
  constructor
  · intro hone first later h
    obtain ⟨-, hafter, rest, rfl⟩ := firstWritten?_setups empty h
    rcases hafter with ⟨hn, -⟩ | ⟨-, hloose⟩
    · exact .inl hn
    · exact .inr ((hloose.keeps_iff rest).mp (hone first _ h).2.2)
  · intro hzero first later h
    obtain ⟨hreturned, hafter, rest, rfl⟩ := firstWritten?_setups empty h
    rcases hafter with ⟨-, hanchored⟩ | ⟨hn, hloose⟩
    · exact ⟨hreturned, hanchored.blocks, hanchored.setups rest⟩
    · have hagrees := (hzero first _ h).resolve_left hn
      exact ⟨hreturned, hloose.blocks, (hloose.keeps_iff rest).mpr hagrees⟩

theorem holdsOne_iff_zero_then_five :
    ({} : Store).table = [] ∧
      (HoldsOne (({} : Store).setups [({}, none), ({ number := 5 }, none)]) ↔
        ZeroComesFirst (({} : Store).setups [({}, none), ({ number := 5 }, none)])) :=
  ⟨rfl, holdsOne_iff {} rfl _⟩

/-- Two documents that are not of number zero are both written. -/
theorem setups_two {first : Genesis} (second : Genesis) (hn : first.number ≠ 0) :
    ∃ between last : Store, ({} : Store).setups [(first, none), (second, none)] =
      [⟨first, {}, .ok (first.chainConfig, first.hash), between⟩,
        ⟨second, { between with allowance := none }, .ok (second.chainConfig, second.hash),
          last⟩] := by
  have hfirst := @setup_of_absent {} first rfl rfl
  rw [commit_accepted rfl] at hfirst
  have habsent : (Store.written {} none (.batch first.entries)).anchor? = none := by
    rw [anchor?_written_batch, if_neg hn]
    rfl
  have hreadable : (Store.written {} none (.batch first.entries)).readError? = none := rfl
  generalize Store.written {} none (.batch first.entries) = between at *
  have hsecond := @setup_of_absent { between with allowance := none } second hreadable habsent
  rw [commit_accepted rfl] at hsecond
  refine ⟨between, Store.written { between with allowance := none } none
    (.batch second.entries), ?_⟩
  rw [setups_cons, hfirst, setups_cons, hsecond]
  rfl

/-- Two documents of number five, of which the second has a later timestamp: both are written. -/
theorem not_holdsOne_five_twice :
    ¬ HoldsOne (({} : Store).setups
      [({ number := 5 }, none), ({ number := 5, timestamp := 1 }, none)]) := by
  obtain ⟨between, last, hcalls⟩ := @setups_two { number := 5 }
    { number := 5, timestamp := 1 } (by decide)
  rw [hcalls]
  intro hone
  have hlater := (hone _ _ rfl).2.2 _ (List.mem_cons_self ..)
  have hne : Genesis.hash { number := 5, timestamp := 1 } ≠ Genesis.hash { number := 5 } := by
    decide +kernel
  have hrefused := (hlater.refused hne).outcome
  cases hrefused

end Store
end Provision

import Provision.Proofs.Returning

/-! The state that an alloc describes.

An alloc can write one state in many ways: a slot that holds zero may be there or not, and empty
code may be written or left out. What counts of a storage is the word in every slot,
`Storage.word`, and the words that are not zero are the same list for two storages exactly if all
words are, `Storage.nonzero_eq_iff`. From there it goes up: accounts that describe the same have
the same state, allocs that do have the same root, and `Genesis.block_eq_of_sameState` says that
the blocks of two documents are the same. -/
namespace Provision

/-! ### The words of a storage -/

/-- What a look-up finds among the entries whose value is kept. -/
theorem Dictionary.find?_filter_value {κ υ : Type} [DecidableEq κ] (keep : υ → Bool) (key : κ)
    {map : Dictionary κ υ} (distinct : (map.map Prod.fst).Nodup) :
    Dictionary.find? key (map.filter fun entry => keep entry.2) =
      (Dictionary.find? key map).filter keep := by
  have hkept : ((map.filter fun entry => keep entry.2).map Prod.fst).Nodup :=
    distinct.sublist (List.filter_sublist.map Prod.fst)
  apply Option.ext
  intro value
  rw [Dictionary.find?_eq_some_iff hkept, Option.filter_eq_some_iff,
    Dictionary.find?_eq_some_iff distinct, List.mem_filter]

theorem Fixed.isZero_iff {size : Nat} {word : Fixed size} :
    word.isZero = true ↔ word = Fixed.zero := by
  rw [Fixed.isZero, List.all_eq_true]
  constructor
  · intro h
    refine Fixed.ext (List.eq_replicate_iff.mpr ⟨word.length_eq, fun byte hbyte => ?_⟩)
    exact eq_of_beq (h byte hbyte)
  · rintro rfl byte hbyte
    exact beq_iff_eq.mpr (List.eq_of_mem_replicate hbyte)

namespace Storage

variable {storage other : Storage}

/-- The word in a slot. A slot that is absent holds zero. -/
def word (storage : Storage) (slot : Word) : Word :=
  (Dictionary.find? slot storage).getD Fixed.zero

theorem ascending_nonzero (h : storage.Ascending) : storage.nonzero.Ascending :=
  List.Pairwise.filter _ h

/-- Of a storage the words that are not zero are left. -/
theorem find?_nonzero (h : storage.Ascending) (slot : Word) :
    Dictionary.find? slot storage.nonzero =
      if storage.word slot = Fixed.zero then none else some (storage.word slot) := by
  have hfilter := Dictionary.find?_filter_value (fun word : Word => !word.isZero) slot h.nodup
  rw [nonzero, hfilter, word]
  cases Dictionary.find? slot storage with
  | none => rfl
  | some word =>
    by_cases hzero : word = Fixed.zero
    · subst hzero
      simp [Option.filter, Fixed.isZero_iff]
    · have hkept : word.isZero = false := Bool.eq_false_iff.mpr (mt Fixed.isZero_iff.mp hzero)
      simp [Option.filter, hkept, hzero]

/-- Two storages leave the same words exactly if every slot holds the same word in both. -/
theorem nonzero_eq_iff (h : storage.Ascending) (hother : other.Ascending) :
    storage.nonzero = other.nonzero ↔ ∀ slot, storage.word slot = other.word slot := by
  constructor
  · intro he slot
    have hfind := congrArg (Dictionary.find? slot) he
    rw [find?_nonzero h, find?_nonzero hother] at hfind
    split at hfind <;> split at hfind
    · next hzero hzero' => rw [hzero, hzero']
    · cases hfind
    · cases hfind
    · exact Option.some.inj hfind
  · intro hwords
    refine (ascending_nonzero h).ext (ascending_nonzero hother) fun slot => ?_
    rw [find?_nonzero h, find?_nonzero hother, hwords]

theorem word_insert_zero {slot : Word} (h : storage.word slot = Fixed.zero) (place : Word) :
    word (storage.insert slot Fixed.zero) place = storage.word place := by
  rw [word, Dictionary.find?_insert]
  by_cases hplace : slot = place
  · subst hplace
    rw [if_pos rfl, h, Option.getD_some]
  · rw [if_neg hplace, word]

/-- The storage with zeros written into these slots. -/
def withZeros (storage : Storage) (slots : List Word) : Storage :=
  storage.insertAll (slots.map fun slot => (slot, Fixed.zero))

/-- Slots that hold zero anyway may have it written into them. -/
theorem word_withZeros {slots : List Word} (h : ∀ slot ∈ slots, storage.word slot = Fixed.zero)
    (place : Word) : (storage.withZeros slots).word place = storage.word place := by
  induction slots generalizing storage with
  | nil => rfl
  | cons slot rest ih =>
    obtain ⟨hslot, hrest⟩ := List.forall_mem_cons.mp h
    have hwords := word_insert_zero hslot
    refine (ih fun slot hs => ?_).trans (hwords place)
    rw [hwords]
    exact hrest slot hs

end Storage

/-! ### Accounts -/

namespace Account

/-- Two accounts that describe the same: no code counts as empty code, and an absent slot as
zero. -/
structure SameState (account other : Account) : Prop where
  balance : account.balance = other.balance
  nonce : account.nonce = other.nonce
  code : account.code.getD [] = other.code.getD []
  storage : ∀ slot, account.storage.word slot = other.storage.word slot

/-- The account with zeros written into these slots. -/
def withZeros (account : Account) (slots : List Word) : Account :=
  { account with storage := account.storage.withZeros slots }

variable {account other : Account}

theorem codeHash_eq_of_code (h : account.code.getD [] = other.code.getD []) :
    account.codeHash = other.codeHash := by
  have hcode : ∀ account : Account, account.codeHash =
      if account.code.getD [] = [] then emptyHash else Hash.keccak (account.code.getD []) := by
    intro account
    rw [codeHash]
    rcases account.code with _ | _ | ⟨byte, rest⟩ <;> rfl
  rw [hcode, hcode, h]

theorem SameState.state_eq (h : account.SameState other) (hstorage : account.storage.Ascending)
    (hother : other.storage.Ascending) : account.state = other.state := by
  have hroot : account.storageRoot = other.storageRoot := by
    rw [storageRoot, storageRoot, Storage.root, Storage.root,
      (Storage.nonzero_eq_iff hstorage hother).mpr h.storage]
  rw [state, state, h.balance, h.nonce, hroot, codeHash_eq_of_code h.code]

end Account

/-! ### Allocs -/

namespace Alloc

/-- Two allocs over the same addresses whose accounts describe the same. -/
def SameState (alloc other : Alloc) : Prop :=
  ∀ address, Option.Rel Account.SameState (Dictionary.find? address alloc)
    (Dictionary.find? address other)

/-- What the state trie holds under each address. -/
def states (alloc : Alloc) : Dictionary Address StateAccount :=
  alloc.map fun entry => (entry.1, entry.2.state)

theorem root_eq_of_states {alloc other : Alloc} (h : alloc.states = other.states) :
    alloc.root = other.root := by
  have hroot : ∀ alloc : Alloc, alloc.root = if alloc.states = [] then emptyRoot
      else Trie.root (alloc.states.map fun entry => (entry.1.bytes, entry.2.encode)) := by
    intro alloc
    cases alloc with
    | nil => rfl
    | cons entry rest =>
      have hstates : states (entry :: rest) ≠ [] := List.cons_ne_nil _ _
      rw [if_neg hstates, states, List.map_map]
      rfl
  rw [hroot, hroot, h]

/-- The alloc with zeros written into slots of each account. -/
def withZeros (alloc : Alloc) (slots : Address → List Word) : Alloc :=
  alloc.map fun entry => (entry.1, entry.2.withZeros (slots entry.1))

/-- Zeros written where the storage holds zero anyway leave the state as it was. -/
theorem sameState_withZeros {alloc : Alloc} {slots : Address → List Word}
    (h : ∀ address account, Dictionary.find? address alloc = some account →
      ∀ slot ∈ slots address, account.storage.word slot = Fixed.zero) :
    alloc.SameState (alloc.withZeros slots) := by
  intro address
  have hfind := Dictionary.find?_mapValue
    (fun address account => Account.withZeros account (slots address)) address alloc
  rw [withZeros, hfind]
  cases haccount : Dictionary.find? address alloc with
  | none => exact .none
  | some account =>
    have hwords := Storage.word_withZeros (h address account haccount)
    exact .some ⟨rfl, rfl, rfl, fun slot => (hwords slot).symm⟩

end Alloc

/-! ### Documents -/

namespace Genesis

variable {genesis : Genesis} {other : Alloc}

theorem ordered_withZeros (h : genesis.Ordered) (slots : Address → List Word) :
    Ordered { genesis with alloc := genesis.alloc.withZeros slots } where
  alloc := List.pairwise_map.mpr h.alloc
  storage := by
    intro entry he
    obtain ⟨before, hbefore, rfl⟩ := List.mem_map.mp he
    exact (h.storage before hbefore).insertAll _

/-- Accounts that describe the same have the same state. -/
theorem state_eq_of_sameState (ordered : genesis.Ordered)
    (orderedOther : Ordered { genesis with alloc := other }) (same : genesis.alloc.SameState other)
    {address : Address} {account accountOther : Account}
    (h : Dictionary.find? address genesis.alloc = some account)
    (hother : Dictionary.find? address other = some accountOther) :
    account.state = accountOther.state := by
  have hsame := same address
  rw [h, hother] at hsame
  cases hsame with
  | some hsame =>
    exact hsame.state_eq (ordered.storage _ (Dictionary.mem_of_find? h))
      (orderedOther.storage _ (Dictionary.mem_of_find? hother))

theorem states_eq_of_sameState (ordered : genesis.Ordered)
    (orderedOther : Ordered { genesis with alloc := other })
    (same : genesis.alloc.SameState other) : genesis.alloc.states = other.states := by
  have hascending : genesis.alloc.states.Ascending := List.pairwise_map.mpr ordered.alloc
  have hother : other.states.Ascending := List.pairwise_map.mpr orderedOther.alloc
  refine hascending.ext hother fun address => ?_
  have hfind : ∀ alloc : Alloc, Dictionary.find? address alloc.states =
      (Dictionary.find? address alloc).map Account.state :=
    fun alloc => Dictionary.find?_mapValue (fun _ => Account.state) address alloc
  rw [hfind, hfind]
  have hsame := same address
  cases hone : Dictionary.find? address genesis.alloc with
  | none =>
    cases htwo : Dictionary.find? address other with
    | none => rfl
    | some account =>
      rw [hone, htwo] at hsame
      cases hsame
  | some account =>
    cases htwo : Dictionary.find? address other with
    | none =>
      rw [hone, htwo] at hsame
      cases hsame
    | some accountOther =>
      exact congrArg some (state_eq_of_sameState ordered orderedOther same hone htwo)

theorem header_eq_of_sameState (ordered : genesis.Ordered)
    (orderedOther : Ordered { genesis with alloc := other })
    (same : genesis.alloc.SameState other) :
    header { genesis with alloc := other } = genesis.header := by
  have hroot : stateRoot { genesis with alloc := other } = genesis.stateRoot :=
    (Alloc.root_eq_of_states (states_eq_of_sameState ordered orderedOther same)).symm
  rw [header, header, hroot]
  rfl

/-- **The block of a document depends only on the state that its alloc describes.** The allocs are
in order, as those are that come from a document. -/
theorem block_eq_of_sameState (ordered : genesis.Ordered)
    (orderedOther : Ordered { genesis with alloc := other })
    (same : genesis.alloc.SameState other) :
    (∀ address account accountOther, Dictionary.find? address genesis.alloc = some account →
        Dictionary.find? address other = some accountOther →
        account.state = accountOther.state) ∧
      stateRoot { genesis with alloc := other } = genesis.stateRoot ∧
      header { genesis with alloc := other } = genesis.header ∧
      hash { genesis with alloc := other } = genesis.hash ∧
      ∀ slots : Address → List Word,
        (∀ address account, Dictionary.find? address genesis.alloc = some account →
          ∀ slot ∈ slots address, account.storage.word slot = Fixed.zero) →
        hash { genesis with alloc := genesis.alloc.withZeros slots } = genesis.hash := by
  have hheader := header_eq_of_sameState ordered orderedOther same
  refine ⟨fun _ _ _ => state_eq_of_sameState ordered orderedOther same,
    congrArg Header.stateRoot hheader, hheader, congrArg Header.hash hheader, ?_⟩
  intro slots hzero
  have hsame := Alloc.sameState_withZeros hzero
  have hwritten := header_eq_of_sameState ordered (ordered_withZeros ordered slots) hsame
  exact congrArg Header.hash hwritten

/-- An account without code, and with zeros on both sides of a word. -/
def scatteredZeros : Account where
  storage := [(.ofNat 1, .ofNat 0), (.ofNat 2, .ofNat 7), (.ofNat 3, .ofNat 0)]
  balance := 5

/-- The same account with empty code, and with a zero somewhere else. -/
def oneZero : Account where
  code := some []
  storage := [(.ofNat 2, .ofNat 7), (.ofNat 9, .ofNat 0)]
  balance := 5

theorem block_eq_of_sameState_zeros :
    Ordered { alloc := [(.ofNat 1, scatteredZeros)] } ∧
      Ordered { alloc := [(.ofNat 1, oneZero)] } ∧
      Alloc.SameState [(.ofNat 1, scatteredZeros)] [(.ofNat 1, oneZero)] ∧
      hash { alloc := [(.ofNat 1, oneZero)] } = hash { alloc := [(.ofNat 1, scatteredZeros)] } := by
  have hone : Ordered { alloc := [(.ofNat 1, scatteredZeros)] } := by
    constructor <;> simp only [Dictionary.Ascending] <;> decide +kernel
  have hother : Ordered { alloc := [(.ofNat 1, oneZero)] } := by
    constructor <;> simp only [Dictionary.Ascending] <;> decide +kernel
  have hwords : ∀ slot, scatteredZeros.storage.word slot = oneZero.storage.word slot :=
    (Storage.nonzero_eq_iff (hone.storage _ (List.mem_cons_self ..))
      (hother.storage _ (List.mem_cons_self ..))).mp (by decide +kernel)
  have hsame : Alloc.SameState [(.ofNat 1, scatteredZeros)] [(.ofNat 1, oneZero)] := by
    intro address
    rw [Dictionary.find?_cons, Dictionary.find?_cons]
    split
    · exact .some ⟨rfl, rfl, rfl, hwords⟩
    · exact .none
  exact ⟨hone, hother, hsame, (block_eq_of_sameState hone hother hsame).2.2.2.1⟩

end Genesis

end Provision

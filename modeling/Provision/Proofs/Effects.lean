import Provision.Proofs.Setup

/-! What the transactions of `setup` change, to the record.

A transaction sets the entries that it names and no others (`Table.Takes`), wholly or not at
all. No two of the ten records of a genesis block have one key (`records_apart`), so all ten
stand after the transaction that writes them; and by what stands under number zero, `setup`
comes down to one transaction or refuses the store as it is (`setup_effect`). -/
namespace Provision

/-- The table after is the one before with just these entries set. -/
structure Table.Takes (before : Table) (entries : List (Bytes × Bytes)) (after : Table) :
    Prop where
  stands : ∀ entry ∈ entries, after.find? entry.1 = some entry.2
  others : ∀ key, key ∉ entries.map Prod.fst → after.find? key = before.find? key

theorem Table.takes_insertAll (table : Table) {entries : List (Bytes × Bytes)}
    (distinct : (entries.map Prod.fst).Nodup) : table.Takes entries (table.insertAll entries) := by
  refine ⟨fun entry he => ?_, fun key hk => ?_⟩
  · rw [Dictionary.find?_insertAll_of_nodup _ distinct,
      (Dictionary.find?_eq_some_iff distinct).mpr he]
    rfl
  · rw [Dictionary.find?_insertAll_of_nodup _ distinct, Dictionary.find?_eq_none_iff.mpr hk]
    rfl

theorem Genesis.entries_keys_nodup (genesis : Genesis) : (genesis.entries.map Prod.fst).Nodup := by
  rw [entries_eq]
  exact genesis.entriesWith_keys_nodup _

namespace Store

variable (store : Store) (genesis : Genesis)

/-! ### One transaction -/

/-- A transaction whose entries have distinct keys is refused and changes nothing, if no more of
them are allowed, or it is run and sets just these entries. -/
theorem commit_cases (transaction : Transaction)
    (distinct : (transaction.entries.map Prod.fst).Nodup) :
    store.allowance.spend? = none ∧
        store.commit transaction = (.error (.file .writeRefused), store) ∨
      store.allowance.spend?.isSome ∧ ∃ after, store.commit transaction = (.ok (), after) ∧
        store.table.Takes transaction.entries after.table := by
  cases hs : store.allowance.spend? with
  | none => exact .inl ⟨rfl, commit_refused hs transaction⟩
  | some left =>
    exact .inr ⟨rfl, _, commit_accepted hs transaction, store.table.takes_insertAll distinct⟩

/-- **No record can be taken for another**: two keys have the same bytes only if they are the
key of the same record for the same block and hash, bytes can be read back as the one key that
they are, and of the ten records of a genesis block none is written over another. -/
theorem records_apart :
    (∀ key other : Key, key.encode = other.encode ↔ key = other) ∧
      (∀ (bytes : Bytes) (key : Key), Key.decode? bytes = some key ↔ key.encode = bytes) ∧
        genesis.entries.length = 10 ∧ (genesis.entries.map Prod.fst).Nodup ∧
          ∀ after, store.writeBatch genesis.entries = (.ok (), after) →
            ∀ record ∈ genesis.records,
              after.table.find? record.1.encode = some record.2 := by
  refine ⟨fun key other => Key.encode_injective.eq_iff, fun bytes key =>
    Key.decode?_eq_some_iff, rfl, genesis.entries_keys_nodup, fun after h record hr => ?_⟩
  rcases store.commit_cases (.batch genesis.entries) genesis.entries_keys_nodup with
    ⟨-, hrefused⟩ | ⟨-, _, hdone, htakes⟩
  · rw [writeBatch, hrefused] at h
    cases h
  · rw [writeBatch, hdone] at h
    cases h
    exact htakes.stands (record.1.encode, record.2) (List.mem_map_of_mem hr)

/-- The record whose key begins with the key of another, in a store that was empty. -/
theorem records_apart_difficulty :
    ∃ after, ({} : Store).writeBatch (Genesis.entries {}) = (.ok (), after) ∧
      after.table.find? (Key.totalDifficulty 0 (Genesis.hash {})).encode =
        some (Rlp.number 131072).encode :=
  ⟨_, rfl, (records_apart {} {}).2.2.2.2 _ rfl
    (.totalDifficulty 0 (Genesis.hash {}), (Rlp.number 131072).encode)
    (List.mem_cons_of_mem _ (List.mem_cons_self ..))⟩

/-! ### The whole of `setup` -/

/-- What comes of an action that is one transaction. If the store allows one more, the result is
returned and just these entries are set; otherwise the error of the transaction is returned in the
words of the action, and the store is as it was. -/
inductive CommitsTo {α ε : Type} (transaction : Transaction) (entries : List (Bytes × Bytes))
    (result : α) (wrap : StoreError → ε) : Except ε α × Store → Prop
  | done {after : Store} (allowed : store.allowance.spend?.isSome)
      (committed : store.commit transaction = (.ok (), after))
      (takes : store.table.Takes entries after.table) :
      CommitsTo transaction entries result wrap (.ok result, after)
  | refused {error : StoreError} (exhausted : store.allowance.spend? = none)
      (refused : store.commit transaction = (.error error, store)) :
      CommitsTo transaction entries result wrap (.error (wrap error), store)

theorem commitsTo {α ε : Type} (transaction : Transaction)
    (distinct : (transaction.entries.map Prod.fst).Nodup) (result : α) (wrap : StoreError → ε) :
    store.CommitsTo transaction transaction.entries result wrap
      (((store.commit transaction).1.mapError wrap).map fun _ => result,
        (store.commit transaction).2) := by
  rcases store.commit_cases transaction distinct with ⟨hnone, hrefused⟩ |
    ⟨hsome, after, hdone, htakes⟩
  · simp only [hrefused, Except.mapError, Except.map]
    exact .refused hnone hrefused
  · simp only [hdone, Except.mapError, Except.map]
    exact .done hsome hdone htakes

/-- **What setting up a store does, by what stands under number zero.** Nothing: the ten records
are written, with the configuration alone, and no other key changes. What has not the length of a
hash, or another hash: the store is refused as it is. The hash of the document: its configuration
record is written anew, and no other key changes. If the transaction does not go through, the store
stays as it is; and so does one that cannot be read. -/
theorem setup_effect :
    match store.readError?, store.table.find? (Key.canonicalHash 0).encode with
    | some e, _ => store.setup genesis = (.error (.store e), store)
    | none, none =>
      let entries := genesis.entriesWith (Text.Utf8.ofChars genesis.chainConfig.print)
      store.CommitsTo (.batch entries) entries (genesis.chainConfig, genesis.hash)
        SetupError.store (store.setup genesis)
    | none, some bytes =>
      if length : bytes.length = 32 then
        let stored : Hash := ⟨bytes, length⟩
        if stored = genesis.hash then
          let record := Text.Utf8.ofChars genesis.chainConfig.print
          store.CommitsTo (.put (Key.config stored).encode record)
            [((Key.config stored).encode, record)] (genesis.chainConfig, stored) SetupError.store
            (store.setup genesis)
        else store.setup genesis = (.error (.mismatch stored genesis.hash), store)
      else store.setup genesis = (.error (.malformedHash 0), store) := by
  cases hread : store.readError? with
  | some e => exact setup_of_unreadable genesis hread
  | none =>
    cases hanchor : store.table.find? (Key.canonicalHash 0).encode with
    | none =>
      simp only [setup_of_absent genesis hread hanchor]
      exact store.commitsTo (.batch genesis.entries) genesis.entries_keys_nodup _ _
    | some bytes =>
      by_cases length : bytes.length = 32
      · simp only [dif_pos length]
        by_cases hsame : (⟨bytes, length⟩ : Hash) = genesis.hash
        · have hanchor : store.anchor? = some genesis.hash.bytes := by
            rw [anchor?, hanchor, ← hsame]
          simp only [hsame, if_true, setup_of_same genesis hread hanchor]
          exact store.commitsTo (.put (Key.config genesis.hash).encode genesis.chainConfig.bytes)
            (List.nodup_singleton _) _ _
        · simp only [if_neg hsame]
          exact setup_of_other genesis hread hanchor (Ne.symm hsame)
      · simp only [dif_neg length]
        have hmalformed : (Fixed.ofBytes? bytes : Option Hash) = none := dif_neg length
        simp only [setup, canonicalHash_of_malformed hread hanchor hmalformed]

end Store
end Provision

import Provision.Proofs.Records

/-! What `setup` does to a store, by what stands under number zero.

Nothing: it writes the ten records in one transaction. The hash of the document: it writes the
configuration record anew. Another hash, or something that is no hash: it writes nothing. -/
namespace Provision.Store

/-! ### Transactions -/

/-- The store after a transaction, with what is left of its allowance. -/
def written (store : Store) (left : Allowance) (transaction : Transaction) : Store :=
  { store with
    table := store.table.insertAll transaction.entries
    allowance := left
    hasTable := true
    journal := transaction :: store.journal }

theorem written_batch_table (store : Store) (left : Allowance) (entries : List (Bytes × Bytes)) :
    (store.written left (.batch entries)).table = store.table.insertAll entries := rfl

theorem written_put_table (store : Store) (left : Allowance) (key value : Bytes) :
    (store.written left (.put key value)).table = store.table.insert key value := rfl

theorem commit_refused {store : Store} (h : store.allowance.spend? = none)
    (transaction : Transaction) :
    store.commit transaction = (.error (.file .writeRefused), store) := by
  simp only [commit, h]

theorem commit_accepted {store : Store} {left : Allowance} (h : store.allowance.spend? = some left)
    (transaction : Transaction) :
    store.commit transaction = (.ok (), store.written left transaction) := by
  simp only [commit, h, written]

theorem commit_eq_ok {store after : Store} {transaction : Transaction}
    (h : store.commit transaction = (.ok (), after)) :
    ∃ left, after = store.written left transaction := by
  cases hs : store.allowance.spend? with
  | none =>
    rw [commit_refused hs] at h
    cases h
  | some left =>
    rw [commit_accepted hs] at h
    cases h
    exact ⟨left, rfl⟩

/-! ### Reading -/

theorem readError?_eq_none_iff {store : Store} :
    store.readError? = none ↔ store.readable = true ∧ store.hasTable = true := by
  cases hreadable : store.readable <;> cases htable : store.hasTable <;>
    simp [readError?, hreadable, htable]

theorem get_of_readError {store : Store} {e : StoreError} (h : store.readError? = some e)
    (key : Bytes) : store.get key = .error e := by
  simp only [get, h]

theorem get_of_readable {store : Store} (h : store.readError? = none) (key : Bytes) :
    store.get key = .ok (store.table.find? key) := by
  simp only [get, h]

/-- A transaction leaves a store readable. -/
theorem readError?_written {store : Store} (h : store.readError? = none) (left : Allowance)
    (transaction : Transaction) : (store.written left transaction).readError? = none :=
  readError?_eq_none_iff.mpr ⟨(readError?_eq_none_iff.mp h).1, rfl⟩

/-! ### The record under number zero -/

/-- What stands under number zero. -/
def anchor? (store : Store) : Option Bytes :=
  store.table.find? (Key.canonicalHash 0).encode

variable {store : Store}

theorem canonicalHash_of_unreadable {e : StoreError} (h : store.readError? = some e)
    (block : UInt64) : store.canonicalHash block = .error (.store e) := by
  simp only [canonicalHash, get_of_readError h]

theorem canonicalHash_of_absent (readable : store.readError? = none) (h : store.anchor? = none) :
    store.canonicalHash 0 = .ok none := by
  simp only [anchor?] at h
  simp only [canonicalHash, get_of_readable readable, h]

theorem canonicalHash_of_hash (readable : store.readError? = none) {stored : Hash}
    (h : store.anchor? = some stored.bytes) : store.canonicalHash 0 = .ok (some stored) := by
  simp only [anchor?] at h
  simp [canonicalHash, get_of_readable readable, h]

theorem canonicalHash_of_malformed (readable : store.readError? = none) {bytes : Bytes}
    (h : store.anchor? = some bytes) (malformed : (Fixed.ofBytes? bytes : Option Hash) = none) :
    store.canonicalHash 0 = .error (.malformedHash 0) := by
  simp only [anchor?] at h
  simp only [canonicalHash, get_of_readable readable, h, malformed]

/-! ### The cases of `setup` -/

variable (genesis : Genesis)

theorem setup_of_unreadable {e : StoreError} (h : store.readError? = some e) :
    store.setup genesis = (.error (.store e), store) := by
  simp only [setup, canonicalHash_of_unreadable h]

theorem setup_of_absent (readable : store.readError? = none) (h : store.anchor? = none) :
    store.setup genesis =
      (((store.commit (.batch genesis.entries)).1.mapError .store).map fun _ =>
        (genesis.chainConfig, genesis.hash), (store.commit (.batch genesis.entries)).2) := by
  simp only [setup, canonicalHash_of_absent readable h, commitGenesis, writeBatch]
  rcases store.commit (.batch genesis.entries) with ⟨_ | _, _⟩ <;> rfl

theorem setup_of_same (readable : store.readError? = none)
    (h : store.anchor? = some genesis.hash.bytes) :
    store.setup genesis =
      (((store.commit (.put (Key.config genesis.hash).encode genesis.chainConfig.bytes)).1.mapError
        .store).map fun _ => (genesis.chainConfig, genesis.hash),
        (store.commit (.put (Key.config genesis.hash).encode genesis.chainConfig.bytes)).2) := by
  simp only [setup, canonicalHash_of_hash readable h, if_true, writeConfig, put]
  rcases store.commit (.put (Key.config genesis.hash).encode genesis.chainConfig.bytes) with
    ⟨_ | _, _⟩ <;> rfl

theorem setup_of_other (readable : store.readError? = none) {stored : Hash}
    (h : store.anchor? = some stored.bytes) (hne : genesis.hash ≠ stored) :
    store.setup genesis = (.error (.mismatch stored genesis.hash), store) := by
  simp only [setup, canonicalHash_of_hash readable h, hne, if_false]

/-! ### The cases, by what the store allows -/

theorem setup_absent_cases (readable : store.readError? = none) (h : store.anchor? = none) :
    store.allowance.spend? = none ∧
        store.setup genesis = (.error (.store (.file .writeRefused)), store) ∨
      ∃ left, store.allowance.spend? = some left ∧ store.setup genesis =
        (.ok (genesis.chainConfig, genesis.hash), store.written left (.batch genesis.entries)) := by
  rw [setup_of_absent genesis readable h]
  cases hs : store.allowance.spend? with
  | none =>
    rw [commit_refused hs]
    exact .inl ⟨rfl, rfl⟩
  | some left =>
    rw [commit_accepted hs]
    exact .inr ⟨left, rfl, rfl⟩

theorem setup_same_cases (readable : store.readError? = none)
    (h : store.anchor? = some genesis.hash.bytes) :
    store.allowance.spend? = none ∧
        store.setup genesis = (.error (.store (.file .writeRefused)), store) ∨
      ∃ left, store.allowance.spend? = some left ∧ store.setup genesis =
        (.ok (genesis.chainConfig, genesis.hash),
          store.written left
            (.put (Key.config genesis.hash).encode genesis.chainConfig.bytes)) := by
  rw [setup_of_same genesis readable h]
  cases hs : store.allowance.spend? with
  | none =>
    rw [commit_refused hs]
    exact .inl ⟨rfl, rfl⟩
  | some left =>
    rw [commit_accepted hs]
    exact .inr ⟨left, rfl, rfl⟩

/-- It is refused and changes nothing, or it has written the block, or the block was there. -/
theorem setup_cases (store : Store) :
    (∃ e, store.setup genesis = (.error e, store)) ∨
      ∃ left after, store.setup genesis = (.ok (genesis.chainConfig, genesis.hash), after) ∧
        (store.anchor? = none ∧ after = store.written left (.batch genesis.entries) ∨
          store.anchor? = some genesis.hash.bytes ∧ after = store.written left
            (.put (Key.config genesis.hash).encode genesis.chainConfig.bytes)) := by
  cases readable : store.readError? with
  | some e => exact .inl ⟨_, setup_of_unreadable genesis readable⟩
  | none =>
    cases hanchor : store.anchor? with
    | none =>
      rcases setup_absent_cases genesis readable hanchor with ⟨-, hs⟩ | ⟨left, -, hs⟩
      · exact .inl ⟨_, hs⟩
      · exact .inr ⟨left, _, hs, .inl ⟨rfl, rfl⟩⟩
    | some bytes =>
      cases hb : (Fixed.ofBytes? bytes : Option Hash) with
      | none =>
        refine .inl ⟨.malformedHash 0, ?_⟩
        simp only [setup, canonicalHash_of_malformed readable hanchor hb]
      | some stored =>
        obtain rfl := Fixed.ofBytes?_eq_some_iff.mp hb
        by_cases he : genesis.hash = stored
        · subst he
          rcases setup_same_cases genesis readable hanchor with ⟨-, hs⟩ | ⟨left, -, hs⟩
          · exact .inl ⟨_, hs⟩
          · exact .inr ⟨left, _, hs, .inr ⟨rfl, rfl⟩⟩
        · exact .inl ⟨_, setup_of_other genesis readable hanchor he⟩

/-- If it succeeds, it has written the block, or the block was there. -/
theorem setup_ok {result : ChainConfig × Hash} {after : Store}
    (h : store.setup genesis = (.ok result, after)) :
    result = (genesis.chainConfig, genesis.hash) ∧ ∃ left,
      store.anchor? = none ∧ after = store.written left (.batch genesis.entries) ∨
        store.anchor? = some genesis.hash.bytes ∧ after = store.written left
          (.put (Key.config genesis.hash).encode genesis.chainConfig.bytes) := by
  rcases setup_cases genesis store with ⟨e, hs⟩ | ⟨left, last, hs, hcases⟩
  · cases h.symm.trans hs
  · cases h.symm.trans hs
    exact ⟨rfl, left, hcases⟩

/-- Where there is a table, there is one afterwards. -/
theorem setup_hasTable (h : store.hasTable = true) : (store.setup genesis).2.hasTable = true := by
  rcases setup_cases genesis store with ⟨e, hs⟩ | ⟨left, last, hs, ⟨-, rfl⟩ | ⟨-, rfl⟩⟩
  · rw [hs]
    exact h
  · rw [hs]
    rfl
  · rw [hs]
    rfl

/-! ### What stands in the store afterwards -/

theorem find?_written_batch (store : Store) (left : Allowance) (key : Key) :
    (store.written left (.batch genesis.entries)).table.find? key.encode =
      (Dictionary.find? key (genesis.recordsWith genesis.chainConfig.bytes)).or
        (store.table.find? key.encode) :=
  genesis.find?_insertAll_entriesWith _ _ key

theorem find?_written_put (store : Store) (left : Allowance) (other key : Key) (value : Bytes) :
    (store.written left (.put other.encode value)).table.find? key.encode =
      if other = key then some value else store.table.find? key.encode := by
  show Dictionary.find? key.encode (store.table.insert other.encode value) = _
  rw [Dictionary.find?_insert]
  simp only [Key.encode_injective.eq_iff]

theorem anchor?_written_batch (store : Store) (left : Allowance) :
    (store.written left (.batch genesis.entries)).anchor? =
      if genesis.number = 0 then some genesis.hash.bytes else store.anchor? := by
  rw [anchor?, find?_written_batch, Genesis.find?_canonicalHash]
  split <;> rfl

theorem anchor?_written_config (store : Store) (left : Allowance) (hash : Hash) (value : Bytes) :
    (store.written left (.put (Key.config hash).encode value)).anchor? = store.anchor? := by
  rw [anchor?, find?_written_put, if_neg (by simp)]
  rfl

end Provision.Store

import Provision.Proofs.Dictionary
import Provision.Proofs.Keys
import Provision.Store.Setup

/-! The records of a genesis block, as a table.

The ten records stand under ten keys, so none of them hides another: `blockTable_perm` says
that a table made from them holds exactly the ten. `insert_config` says what becomes of it
when the configuration record is written anew. -/
namespace Provision.Genesis

/-- The ten records of the genesis block, with a given configuration record. -/
def recordsWith (genesis : Genesis) (config : Bytes) : List (Key × Bytes) :=
  let header := genesis.header
  let hash := header.hash
  let block := genesis.number
  [(.header block hash, header.encode),
    (.totalDifficulty block hash, (Rlp.number header.difficulty.toNat).encode),
    (.numberOf hash, Key.blockNumber block),
    (.body block hash, [0xc2, 0xc0, 0xc0]),
    (.receipts block hash, [0xc0]),
    (.canonicalHash block, hash.bytes),
    (.headBlock, hash.bytes),
    (.headFast, hash.bytes),
    (.headHeader, hash.bytes),
    (.config hash, config)]

def entriesWith (genesis : Genesis) (config : Bytes) : List (Bytes × Bytes) :=
  (genesis.recordsWith config).map fun (key, value) => (key.encode, value)

/-- The table with the ten records and nothing else. -/
def blockTable (genesis : Genesis) (config : Bytes) : Table :=
  Dictionary.ofList (genesis.entriesWith config)

theorem entries_eq (genesis : Genesis) :
    genesis.entries = genesis.entriesWith genesis.chainConfig.bytes := rfl

/-! ### Ten different keys -/

theorem recordsWith_keys_nodup (genesis : Genesis) (config : Bytes) :
    ((genesis.recordsWith config).map Prod.fst).Nodup := by
  simp [recordsWith]

theorem entriesWith_keys_nodup (genesis : Genesis) (config : Bytes) :
    ((genesis.entriesWith config).map Prod.fst).Nodup := by
  have hmap : (genesis.entriesWith config).map Prod.fst =
      ((genesis.recordsWith config).map Prod.fst).map Key.encode := by
    rw [entriesWith, List.map_map, List.map_map]
    rfl
  rw [hmap]
  exact List.Pairwise.map _ (fun _ _ hne he => hne (Key.encode_injective he))
    (recordsWith_keys_nodup genesis config)

theorem blockTable_perm (genesis : Genesis) (config : Bytes) :
    (genesis.blockTable config).Perm (genesis.entriesWith config) :=
  Dictionary.ofList_perm (entriesWith_keys_nodup genesis config)

theorem find?_entriesWith (genesis : Genesis) (config : Bytes) (key : Key) :
    Dictionary.find? key.encode (genesis.entriesWith config) =
      Dictionary.find? key (genesis.recordsWith config) :=
  Dictionary.find?_map Key.encode_injective key _

theorem find?_canonicalHash (genesis : Genesis) (config : Bytes) :
    Dictionary.find? (Key.canonicalHash 0) (genesis.recordsWith config) =
      if genesis.number = 0 then some genesis.hash.bytes else none := by
  simp [recordsWith, Dictionary.find?_cons, hash]

/-! ### Writing them -/

/-- What can be found under a key after the ten records have been written over a table. -/
theorem find?_insertAll_entriesWith (genesis : Genesis) (config : Bytes) (table : Table)
    (key : Key) : Dictionary.find? key.encode (table.insertAll (genesis.entriesWith config)) =
      (Dictionary.find? key (genesis.recordsWith config)).or (table.find? key.encode) := by
  rw [Dictionary.find?_insertAll_of_nodup _ (entriesWith_keys_nodup genesis config),
    find?_entriesWith]

/-- The configuration record is the last of the ten. -/
theorem blockTable_eq_insert (genesis : Genesis) (config : Bytes) :
    genesis.blockTable config =
      (Dictionary.insertAll [] ((genesis.entriesWith []).take 9)).insert
        (Key.config genesis.hash).encode config := by
  have hsplit : genesis.entriesWith config =
      (genesis.entriesWith []).take 9 ++ [((Key.config genesis.hash).encode, config)] := rfl
  rw [blockTable, Dictionary.ofList, hsplit, Dictionary.insertAll_append]
  rfl

/-- Writing the configuration record anew leaves the table with the new record. -/
theorem insert_config (genesis : Genesis) (first second : Bytes) :
    (genesis.blockTable first).insert (Key.config genesis.hash).encode second =
      genesis.blockTable second := by
  rw [blockTable_eq_insert, Dictionary.insert_insert, ← blockTable_eq_insert]

end Provision.Genesis

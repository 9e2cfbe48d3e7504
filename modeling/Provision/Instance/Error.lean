import Provision.Disk.Path
import Provision.Store.Setup

/-! What can go wrong while an instance is made, looked at or removed. -/
namespace Provision

inductive InstanceError
  | notEmpty (path : Path)
  | directory (path : Path) (error : FileError)
  | invalidGenesis (error : Json.Error)
  | storeOpen (store : Name) (error : StoreError)
  | genesisSetup (store : Name) (error : SetupError)
  | storeWrite (store : Name) (error : StoreError)
  | teardown (path : Path) (error : FileError)
deriving DecidableEq

namespace InstanceError

def message : InstanceError → String
  | .notEmpty path => "directory [" ++ String.ofList path ++ "] is not empty"
  | .directory path e => "can't prepare directory " ++ String.ofList path ++ ": " ++ e.message
  | .invalidGenesis e => "invalid genesis: " ++ e.message
  | .storeOpen store e =>
    "can't open database for " ++ String.ofList store ++ " due to " ++ e.message
  | .genesisSetup store e =>
    "can't setup genesis for " ++ String.ofList store ++ " due to " ++ e.message
  | .storeWrite store e =>
    "can't write chain config for " ++ String.ofList store ++ " due to " ++ e.message
  | .teardown path e => "can't remove " ++ String.ofList path ++ ": " ++ e.message

/-- The message of the error and those of its causes. -/
def chain (error : InstanceError) : List String :=
  error.message ::
    match error with
    | .notEmpty _ => []
    | .directory _ e | .teardown _ e => [e.message]
    | .invalidGenesis e => [e.message]
    | .genesisSetup _ e => e.chain
    | .storeOpen _ e | .storeWrite _ e => e.chain

end InstanceError
end Provision

import LeafageEvm.Tempo.Base

/-! The second registry of validators: records that are only appended and deactivated, the list of the active ones,
the maps from keys and addresses to records, the set of the ingress endpoints in use, and the migration of the first
registry, which goes down its array one index at a time. Hashing, parsing of endpoints and Ed25519 are parameters;
events, gas and the packing of the storage are left out. -/

namespace LeafageEvm.Tempo
open Function (update)

inductive ValidatorError where
  | notInitialized
  | alreadyInitialized
  | unauthorized
  | validatorNotFound
  | validatorAlreadyDeactivated
  | invalidPublicKey
  | publicKeyAlreadyExists
  | invalidValidatorAddress
  | addressAlreadyHasValidator
  | notIpPort (input backtrace : String)
  | notIp (input backtrace : String)
  | ingressAlreadyExists (ingress : String)
  | invalidSignature
  | invalidSignatureFormat
  | invalidOwner
  | invalidMigrationIndex
  | migrationNotComplete
  | emptyV1ValidatorSet
  | arrayOutOfBounds
  deriving DecidableEq

inductive IpAddr where
  | v4 (octets : List Nat)
  | v6 (octets : List Nat)
  deriving DecidableEq

inductive SocketAddr where
  | v4 (octets : List Nat) (port : Nat)
  | v6 (octets : List Nat) (scopeId port : Nat)
  deriving DecidableEq

def SocketAddr.ip : SocketAddr → IpAddr
  | .v4 octets _ => .v4 octets
  | .v6 octets _ _ => .v6 octets

def toBeBytes (width value : Nat) : List Nat := (List.range width).reverse.map fun i => value / 256 ^ i % 256

/-- The bytes that are hashed to the key of an ingress endpoint. -/
def SocketAddr.keyData : SocketAddr → List Nat
  | .v4 octets port => octets ++ toBeBytes 2 port
  | .v6 octets scopeId port => octets ++ toBeBytes 4 scopeId ++ toBeBytes 2 port

inductive SignatureNamespace where
  | addValidator | rotateValidator
  deriving DecidableEq

/-- What a validator signs. -/
structure ValidatorMessage where
  chainId : Nat
  validatorAddress : Address
  ingress : String
  egress : String
  feeRecipient : Option Address
  deriving DecidableEq

structure ValidatorPrimitives where
  keccak256 : List Nat → Nat
  parseSocketAddr : String → Option SocketAddr
  parseIpAddr : String → Option IpAddr
  ipToString : IpAddr → String
  /-- Whether 32 bytes are an Ed25519 point. -/
  decodesKey : Nat → Bool
  /-- Whether the bytes are a signature of 64 bytes. -/
  decodesSignature : List Nat → Bool
  verify : (publicKey : Nat) → (signature : List Nat) → SignatureNamespace → ValidatorMessage → Bool

namespace ValidatorPrimitives

variable (prim : ValidatorPrimitives)

def notIpPortBacktrace : String := "input was not of the form `<ip>:<port>`"
def notIpBacktrace : String := "input was not a valid IP address"

def validateEndpoints (ingress egress : String) : Except ValidatorError Unit :=
  (require ((prim.parseSocketAddr ingress).isSome = true) (.notIpPort ingress notIpPortBacktrace)).bind fun _ =>
    require ((prim.parseIpAddr egress).isSome = true) (.notIp egress notIpBacktrace)

def ingressKey (ingress : String) : Except ValidatorError Nat :=
  (orError (prim.parseSocketAddr ingress) (.notIpPort ingress notIpPortBacktrace)).map fun addr =>
    prim.keccak256 addr.keyData

def verifyValidatorSignature (publicKey : Nat) (signature : List Nat) (nameSpace : SignatureNamespace)
    (message : ValidatorMessage) : Except ValidatorError Unit :=
  (require (prim.decodesSignature signature = true) .invalidSignatureFormat).bind fun _ =>
    (require (prim.decodesKey publicKey = true) .invalidPublicKey).bind fun _ =>
      require (prim.verify publicKey signature nameSpace message = true) .invalidSignature

end ValidatorPrimitives

/-! ### The first registry, as the migration reads it -/

structure V1Validator where
  publicKey : Nat := 0
  active : Bool := false
  validatorAddress : Address := 0
  inboundAddress : String := ""
  outboundAddress : String := ""
  deriving DecidableEq

structure ValidatorConfig where
  owner : Address
  validatorsArray : List Address
  validators : Address → V1Validator
  nextDkgCeremony : Nat

/-! ### The second registry -/

structure ValidatorRecord where
  publicKey : Nat
  validatorAddress : Address
  ingress : String
  egress : String
  feeRecipient : Address
  index : Nat
  activeIdx : Nat
  addedAtHeight : Nat
  deactivatedAtHeight : Nat
  deriving DecidableEq

/-- `Config`; the two counters are bytes. -/
structure RegistryConfig where
  owner : Address := 0
  isInit : Bool := false
  initAtHeight : Nat := 0
  migrationSkippedCount : Nat := 0
  v1ValidatorCount : Nat := 0
  deriving DecidableEq

namespace RegistryConfig

variable (config : RegistryConfig)

def requireInit : Except ValidatorError Unit := require (config.isInit = true) .notInitialized

def requireNotInit : Except ValidatorError Unit :=
  require (config.isInit = false) .alreadyInitialized

def requireOwner (caller : Address) : Except ValidatorError Unit :=
  require (config.owner = caller) .unauthorized

def requireOwnerOrValidator (caller validator : Address) : Except ValidatorError Unit :=
  require (caller = validator ∨ config.owner = caller) .unauthorized

end RegistryConfig

structure ValidatorConfigV2 where
  config : RegistryConfig := {}
  validators : List ValidatorRecord := []
  addressToIndex : Address → Nat := fun _ => 0
  pubkeyToIndex : Nat → Nat := fun _ => 0
  nextNetworkIdentityRotationEpoch : Nat := 0
  activeIngressIps : Nat → Bool := fun _ => false
  activeIndices : List Nat := []

/-- The block of a call, and the first registry in it. -/
structure ValidatorEnv where
  chainId : Nat
  blockNumber : Nat
  v1 : ValidatorConfig

structure AddValidatorCall where
  validatorAddress : Address
  publicKey : Nat
  ingress : String
  egress : String
  feeRecipient : Address
  signature : List Nat

structure RotateValidatorCall where
  idx : Nat
  publicKey : Nat
  ingress : String
  egress : String
  signature : List Nat

namespace ValidatorConfigV2

variable (prim : ValidatorPrimitives) (env : ValidatorEnv) (registry : ValidatorConfigV2)
variable (sender : Address) (idx : Nat)

def getActiveValidator : Except ValidatorError ValidatorRecord :=
  (orError registry.validators[idx]? .validatorNotFound).bind fun v =>
    (require (v.deactivatedAtHeight = 0) .validatorAlreadyDeactivated).map fun _ => v

/-- The height in the lifecycle field of a record. -/
def deactivatedAt : Nat := (registry.validators[idx]?.map (·.deactivatedAtHeight)).getD 0

def requireUniqueIngress (ingress : String) : Except ValidatorError Nat :=
  (prim.ingressKey ingress).bind fun ingressHash =>
    (require (registry.activeIngressIps ingressHash = false) (.ingressAlreadyExists ingress)).map fun _ => ingressHash

def updateIngressIpTracking (oldIngress newIngress : String) : Except ValidatorError ValidatorConfigV2 :=
  (prim.ingressKey oldIngress).bind fun oldHash => (prim.ingressKey newIngress).bind fun newHash =>
    if oldHash ≠ newHash then
      (require (registry.activeIngressIps newHash = false) (.ingressAlreadyExists newIngress)).map fun _ =>
        { registry with
          activeIngressIps := update (update registry.activeIngressIps oldHash false) newHash true }
    else .ok registry

def appendValidator (addr : Address) (pubkey : Nat) (ingress egress : String) (feeRecipient : Address)
    (addedAtHeight deactivatedAtHeight : Nat) : ValidatorConfigV2 × Nat :=
  let count := registry.validators.length
  let activeIndices := if deactivatedAtHeight = 0 then registry.activeIndices ++ [count + 1] else registry.activeIndices
  let v : ValidatorRecord :=
    { publicKey := pubkey, validatorAddress := addr, ingress, egress, feeRecipient, index := count,
      activeIdx := if deactivatedAtHeight = 0 then activeIndices.length else 0
      addedAtHeight, deactivatedAtHeight }
  ({ registry with
      activeIndices
      validators := registry.validators ++ [v]
      pubkeyToIndex := update registry.pubkeyToIndex pubkey (count + 1)
      addressToIndex := update registry.addressToIndex addr (count + 1) }, count)

def requireNewAddress (addr : Address) : Except ValidatorError Unit :=
  (require (addr ≠ 0) .invalidValidatorAddress).bind fun _ =>
    let idx1 := registry.addressToIndex addr
    require (¬ (idx1 ≠ 0 ∧ registry.deactivatedAt (idx1 - 1) = 0)) .addressAlreadyHasValidator

def requireNewPubkey (pubkey : Nat) : Except ValidatorError Unit :=
  (require (pubkey ≠ 0) .invalidPublicKey).bind fun _ =>
    require (registry.pubkeyToIndex pubkey = 0) .publicKeyAlreadyExists

def addValidator (sender : Address) (call : AddValidatorCall) : Except ValidatorError (ValidatorConfigV2 × Nat) :=
  registry.config.requireInit.bind fun _ => (registry.config.requireOwner sender).bind fun _ =>
    (registry.requireNewPubkey call.publicKey).bind fun _ =>
    (registry.requireNewAddress call.validatorAddress).bind fun _ =>
    (prim.validateEndpoints call.ingress call.egress).bind fun _ =>
    (registry.requireUniqueIngress prim call.ingress).bind fun ingressHash =>
    (prim.verifyValidatorSignature call.publicKey call.signature .addValidator
      { chainId := env.chainId, validatorAddress := call.validatorAddress, ingress := call.ingress,
        egress := call.egress, feeRecipient := some call.feeRecipient }).map fun _ =>
      ({ registry with
          activeIngressIps := update registry.activeIngressIps ingressHash true }).appendValidator
        call.validatorAddress call.publicKey call.ingress call.egress call.feeRecipient env.blockNumber 0

/-- The end of `deactivate_validator`: swap and pop in the list of active records, with the pointer back of the record
that moves. -/
def swapAndPop (activeIdx : Nat) : ValidatorConfigV2 :=
  let activeIndex := activeIdx - 1
  let lastPos := registry.activeIndices.length - 1
  let movedVal := registry.activeIndices.getD lastPos 0
  let moved :=
    if activeIndex ≠ lastPos then
      { registry with
        activeIndices := registry.activeIndices.set activeIndex movedVal
        validators := registry.validators.modify (movedVal - 1) fun v => { v with activeIdx := activeIndex + 1 } }
    else registry
  { moved with
    activeIndices := moved.activeIndices.dropLast
    validators := moved.validators.modify idx fun v => { v with activeIdx := 0 } }

def deactivateValidator : Except ValidatorError ValidatorConfigV2 :=
  (registry.getActiveValidator idx).bind fun v =>
    (registry.config.requireOwnerOrValidator sender v.validatorAddress).bind fun _ =>
    (prim.ingressKey v.ingress).map fun ingressHash =>
      ({ registry with
          activeIngressIps := update registry.activeIngressIps ingressHash false
          validators := registry.validators.modify idx fun v =>
            { v with deactivatedAtHeight := env.blockNumber } }).swapAndPop idx v.activeIdx

/-- `rotate_validator`: the old identity goes to a record of its own, the new one to the place of the old. -/
def rotateValidator (sender : Address) (call : RotateValidatorCall) : Except ValidatorError ValidatorConfigV2 :=
  (registry.getActiveValidator call.idx).bind fun v =>
    registry.config.requireInit.bind fun _ =>
    (registry.config.requireOwnerOrValidator sender v.validatorAddress).bind fun _ =>
    (registry.requireNewPubkey call.publicKey).bind fun _ =>
    (prim.validateEndpoints call.ingress call.egress).bind fun _ =>
    (registry.requireUniqueIngress prim call.ingress).bind fun _ =>
    (prim.verifyValidatorSignature call.publicKey call.signature .rotateValidator
      { chainId := env.chainId, validatorAddress := v.validatorAddress, ingress := call.ingress,
        egress := call.egress, feeRecipient := none }).bind fun _ =>
    (registry.updateIngressIpTracking prim v.ingress call.ingress).map fun registry =>
      let appendedIdx := registry.validators.length
      let snapshot := { v with index := appendedIdx, activeIdx := 0, deactivatedAtHeight := env.blockNumber }
      { registry with
        validators := (registry.validators ++ [snapshot]).modify call.idx fun updated =>
          { updated with publicKey := call.publicKey, ingress := call.ingress, egress := call.egress,
                         addedAtHeight := env.blockNumber }
        pubkeyToIndex := update (update registry.pubkeyToIndex v.publicKey (appendedIdx + 1))
          call.publicKey (call.idx + 1) }

def setFeeRecipient (feeRecipient : Address) : Except ValidatorError ValidatorConfigV2 :=
  (registry.getActiveValidator idx).bind fun v =>
    registry.config.requireInit.bind fun _ =>
    (registry.config.requireOwnerOrValidator sender v.validatorAddress).map fun _ =>
      { registry with validators := registry.validators.set idx { v with feeRecipient } }

def setIpAddresses (ingress egress : String) :
    Except ValidatorError ValidatorConfigV2 :=
  (registry.getActiveValidator idx).bind fun v =>
    registry.config.requireInit.bind fun _ =>
    (registry.config.requireOwnerOrValidator sender v.validatorAddress).bind fun _ =>
    (prim.validateEndpoints ingress egress).bind fun _ =>
    (registry.updateIngressIpTracking prim v.ingress ingress).map fun registry =>
      { registry with validators := registry.validators.set idx { v with ingress, egress } }

def transferValidatorOwnership (newAddress : Address) :
    Except ValidatorError ValidatorConfigV2 :=
  (registry.getActiveValidator idx).bind fun v =>
    registry.config.requireInit.bind fun _ =>
    (registry.config.requireOwnerOrValidator sender v.validatorAddress).bind fun _ =>
    (registry.requireNewAddress newAddress).map fun _ =>
      { registry with
        validators := registry.validators.set idx { v with validatorAddress := newAddress }
        addressToIndex :=
          update (update registry.addressToIndex v.validatorAddress 0) newAddress (idx + 1) }

def transferOwnership (newOwner : Address) : Except ValidatorError ValidatorConfigV2 :=
  (require (newOwner ≠ 0) .invalidOwner).bind fun _ =>
    registry.config.requireInit.bind fun _ => (registry.config.requireOwner sender).map fun _ =>
      { registry with config := { registry.config with owner := newOwner } }

def setNetworkIdentityRotationEpoch (epoch : Nat) : Except ValidatorError ValidatorConfigV2 :=
  registry.config.requireInit.bind fun _ => (registry.config.requireOwner sender).map fun _ =>
    { registry with nextNetworkIdentityRotationEpoch := epoch }

/-! ### Migration -/

/-- The configuration `require_migration_owner` goes on with, and the registry it leaves: as long as there is no owner,
owner and length of the first registry are taken over, the length as a byte. The count of skipped validators is reset
in the registry only. -/
def takeOver : Except ValidatorError (ValidatorConfigV2 × RegistryConfig) :=
  let config := registry.config
  if config.owner = 0 then
    (require (env.v1.validatorsArray.length ≠ 0) .emptyV1ValidatorSet).map fun _ =>
      let v1ValidatorCount := env.v1.validatorsArray.length % 256
      ({ registry with config := { owner := env.v1.owner, v1ValidatorCount } },
        { config with owner := env.v1.owner, v1ValidatorCount })
  else .ok (registry, config)

def requireMigrationOwner (caller : Address) : Except ValidatorError (ValidatorConfigV2 × RegistryConfig) :=
  registry.config.requireNotInit.bind fun _ => (registry.takeOver env).bind fun taken =>
    (taken.2.requireOwner caller).map fun _ => taken

def skip (skipped : Nat) : ValidatorConfigV2 :=
  { registry with config := { registry.config with migrationSkippedCount := min (skipped + 1) 255 } }

/-- The end of `migrate_validator`, from the record of the first registry on. -/
def migrateRecord (v1Val : V1Validator) (skipped : Nat) : Except ValidatorError ValidatorConfigV2 :=
  if prim.decodesKey v1Val.publicKey = false then .ok (registry.skip skipped) else
    match prim.parseSocketAddr v1Val.outboundAddress with
    | none => .ok (registry.skip skipped)
    | some outbound =>
      if registry.pubkeyToIndex v1Val.publicKey ≠ 0 then .ok (registry.skip skipped) else
        let addrIdx := registry.addressToIndex v1Val.validatorAddress
        (require (¬ (addrIdx ≠ 0 ∧ registry.deactivatedAt (addrIdx - 1) = 0)) .addressAlreadyHasValidator).bind fun _ =>
        (prim.ingressKey v1Val.inboundAddress).map fun ingressHash =>
          if v1Val.active = true ∧ registry.activeIngressIps ingressHash = true then registry.skip skipped else
            let appended := (registry.appendValidator v1Val.validatorAddress v1Val.publicKey v1Val.inboundAddress
              (prim.ipToString outbound.ip) 0 env.blockNumber (if v1Val.active then 0 else env.blockNumber)).1
            if v1Val.active = true then
              { appended with activeIngressIps := update appended.activeIngressIps ingressHash true }
            else appended

def migrateValidator : Except ValidatorError ValidatorConfigV2 :=
  (registry.requireMigrationOwner env sender).bind fun taken =>
    let v1Count := taken.2.v1ValidatorCount
    let skipped := taken.2.migrationSkippedCount
    let totalProcessed := taken.1.validators.length + skipped
    (require (¬ (v1Count ≤ totalProcessed ∨ idx ≠ v1Count - totalProcessed - 1)) .invalidMigrationIndex).bind fun _ =>
      (orError env.v1.validatorsArray[idx]? .arrayOutOfBounds).bind fun addr =>
        taken.1.migrateRecord prim env (env.v1.validators addr) skipped

def initializeIfMigrated : Except ValidatorError ValidatorConfigV2 :=
  (registry.requireMigrationOwner env sender).bind fun taken =>
    (require (¬ (taken.2.v1ValidatorCount = 0 ∨
        taken.1.validators.length + taken.2.migrationSkippedCount < taken.2.v1ValidatorCount))
      .migrationNotComplete).map fun _ =>
      { taken.1 with
        nextNetworkIdentityRotationEpoch := env.v1.nextDkgCeremony
        config := { taken.2 with initAtHeight := env.blockNumber, isInit := true } }

end ValidatorConfigV2

/-! ### Runs -/

inductive ValidatorCall where
  | migrateValidator (idx : Nat)
  | initializeIfMigrated
  | addValidator (call : AddValidatorCall)
  | deactivateValidator (idx : Nat)
  | rotateValidator (call : RotateValidatorCall)
  | setFeeRecipient (idx : Nat) (feeRecipient : Address)
  | setIpAddresses (idx : Nat) (ingress egress : String)
  | transferValidatorOwnership (idx : Nat) (newAddress : Address)
  | transferOwnership (newOwner : Address)
  | setNetworkIdentityRotationEpoch (epoch : Nat)

structure ValidatorTx where
  env : ValidatorEnv
  sender : Address
  call : ValidatorCall

def ValidatorConfigV2.exec (prim : ValidatorPrimitives) (registry : ValidatorConfigV2) (tx : ValidatorTx) :
    Except ValidatorError ValidatorConfigV2 :=
  match tx.call with
  | .migrateValidator idx => registry.migrateValidator prim tx.env tx.sender idx
  | .initializeIfMigrated => registry.initializeIfMigrated tx.env tx.sender
  | .addValidator call => (registry.addValidator prim tx.env tx.sender call).map (·.1)
  | .deactivateValidator idx => registry.deactivateValidator prim tx.env tx.sender idx
  | .rotateValidator call => registry.rotateValidator prim tx.env tx.sender call
  | .setFeeRecipient idx feeRecipient => registry.setFeeRecipient tx.sender idx feeRecipient
  | .setIpAddresses idx ingress egress => registry.setIpAddresses prim tx.sender idx ingress egress
  | .transferValidatorOwnership idx newAddress => registry.transferValidatorOwnership tx.sender idx newAddress
  | .transferOwnership newOwner => registry.transferOwnership tx.sender newOwner
  | .setNetworkIdentityRotationEpoch epoch => registry.setNetworkIdentityRotationEpoch tx.sender epoch

/-- The index of the first registry that a call migrates or skips. -/
def ValidatorCall.migrated : ValidatorCall → List Nat
  | .migrateValidator idx => [idx]
  | _ => []

/-- The registry with the history of its migration: the length of the first registry's array when the migration
started, and the indices that were migrated or skipped. -/
structure RegistryHistory where
  registry : ValidatorConfigV2 := {}
  v1AtStart : Option Nat := none
  migrated : List Nat := []

/-- A failing call is reverted. -/
def RegistryHistory.step (prim : ValidatorPrimitives) (history : RegistryHistory) (tx : ValidatorTx) : RegistryHistory :=
  match history.registry.exec prim tx with
  | .error _ => history
  | .ok registry =>
    { registry
      v1AtStart := history.v1AtStart.or (tx.call.migrated.head?.map fun _ => tx.env.v1.validatorsArray.length)
      migrated := history.migrated ++ tx.call.migrated }

end LeafageEvm.Tempo

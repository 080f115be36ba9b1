import LeafageEvm.Tempo.TokenActions

/-! Payment channels over TIP-20 tokens: the reserve holds the deposits, pays the payee against vouchers of the
payer and refunds the rest. A channel is stored under the hash of its descriptor, which stands for the
descriptor; its four fields share one storage word and keep their widths. Storage credits are left out. -/

namespace LeafageEvm.Tempo

instance wordNeZero : NeZero (2 ^ 256) := ⟨by decide⟩

abbrev Word := Fin (2 ^ 256)

structure ChannelDescriptor where
  payer : Address
  payee : Address
  operator : Address
  token : Address
  salt : Word
  authorizedSigner : Address
  expiringNonceHash : Word
  deriving DecidableEq

structure PackedChannelState where
  settled : Nat := 0
  deposit : Nat := 0
  closeRequestedAt : Nat := 0
  usesLogicalReceivePolicySender : Bool := false
  deriving DecidableEq

/-- What has moved in the present life of a channel, since it was last opened, and when the close request was
made that stands. The code does not keep this. -/
structure ChannelHistory where
  deposited : Nat := 0
  received : Nat := 0
  refunded : Nat := 0
  requestedAt : Option Nat := none
  deriving DecidableEq

/-- The tokens and the channels. The channels opened in this transaction and the hash that a new one is opened
under are transient. -/
structure ChannelReserve where
  world : World := {}
  channelStates : ChannelDescriptor → PackedChannelState := fun _ => {}
  openedThisTx : ChannelDescriptor → Bool := fun _ => false
  channelOpenContextHash : Word := 0
  history : ChannelDescriptor → ChannelHistory := fun _ => {}

def closeGracePeriod : Nat := 15 * 60

namespace PackedChannelState

def «exists» (state : PackedChannelState) : Bool := state.deposit ≠ 0

def receivePolicySender (state : PackedChannelState) (payer : Address) : Address :=
  if state.usesLogicalReceivePolicySender then payer else tip20ChannelReserveAddress

end PackedChannelState

def ChannelDescriptor.expectedSigner (descriptor : ChannelDescriptor) : Address :=
  if descriptor.authorizedSigner = 0 then descriptor.payer else descriptor.authorizedSigner

namespace ChannelReserve

variable (recover : VoucherScheme) (env : Env) (reserve : ChannelReserve) (descriptor : ChannelDescriptor) (msgSender : Address) (amount : Nat)

def now : Nat := min env.timestamp (2 ^ 64 - 1)
def nowU32 : Nat := min env.timestamp (2 ^ 32 - 1)

def onToken (token : Address) (operation : Custody → Except TempoError Custody) :
    Except TempoError ChannelReserve :=
  (require (isTip20Prefix token = true) .invalidToken).bind fun _ =>
    (operation ⟨reserve.world.tokens token, reserve.world.guard⟩).map fun state =>
      { reserve with world := { tokens := Function.update reserve.world.tokens token state.token, guard := state.guard } }

def setState (state : PackedChannelState) : ChannelReserve :=
  { reserve with channelStates := Function.update reserve.channelStates descriptor state }

def note (change : ChannelHistory → ChannelHistory) :
    ChannelReserve :=
  { reserve with history := Function.update reserve.history descriptor (change (reserve.history descriptor)) }

def collect :
    Except TempoError ChannelReserve :=
  (reserve.onToken descriptor.token fun state =>
      if .t12 ≤ env.spec then
        state.channelReserveTransfer env descriptor.payer (.direct tip20ChannelReserveAddress) amount descriptor.payer
      else state.systemTransferFrom env descriptor.token tip20ChannelReserveAddress descriptor.payer amount).map fun reserve =>
    reserve.note descriptor fun history => { history with deposited := history.deposited + amount }

def deliver (dest : Address) (amount : Nat)
    (receivePolicySender : Address) : Except TempoError ChannelReserve :=
  reserve.onToken descriptor.token fun state =>
    if .t12 ≤ env.spec then
      (Recipient.resolve env dest).bind fun dest =>
        state.channelReserveTransfer env tip20ChannelReserveAddress dest amount receivePolicySender
    else state.transfer env descriptor.token tip20ChannelReserveAddress dest amount 0

def payPayee
    (receivePolicySender : Address) : Except TempoError ChannelReserve :=
  (if .t12 ≤ env.spec then
      (Recipient.resolve env descriptor.payee).bind fun payee =>
        ensureTransferAuthorized env descriptor.payer payee.target
    else ensureAuthorizedAs env descriptor.payer .sender).bind fun _ =>
      (reserve.deliver env descriptor descriptor.payee amount receivePolicySender).map fun reserve =>
        reserve.note descriptor fun history => { history with received := history.received + amount }

def refundPayer :
    Except TempoError ChannelReserve :=
  (reserve.deliver env descriptor descriptor.payer amount tip20ChannelReserveAddress).map fun reserve =>
    reserve.note descriptor fun history => { history with refunded := history.refunded + amount }

def unlessZero (reserve : ChannelReserve) (operation : ChannelReserve → Except TempoError ChannelReserve) :
    Except TempoError ChannelReserve :=
  if amount ≠ 0 then operation reserve else .ok reserve

def loadExistingState : Except TempoError PackedChannelState :=
  (require ((reserve.channelStates descriptor).exists = true) .channelNotFound).map fun _ => reserve.channelStates descriptor

def ensurePayeeOrOperator (sender : Address) (descriptor : ChannelDescriptor) : Except TempoError Unit :=
  require (sender = descriptor.payee ∨ descriptor.operator ≠ 0 ∧ sender = descriptor.operator) .notPayeeOrOperator

/-- Who signed a voucher for a channel and an amount, by its signature. -/
abbrev VoucherScheme := ChannelDescriptor → Nat → Nat → Option Address

def validateVoucher (cumulativeAmount signature : Nat) :
    Except TempoError Unit :=
  require (recover descriptor cumulativeAmount signature = some descriptor.expectedSigner) .invalidSignature

/-- The checks on the payee that a deposit is made under. -/
def ensureDepositAuthorized (payer payee receivePolicySender : Address) : Except TempoError Unit :=
  (resolveRecipient env payee).bind fun payee =>
    if .t12 ≤ env.spec then
      (ensureTransferAuthorized env payer payee).bind fun _ => ensureReceivePolicyAuthorized env receivePolicySender payee
    else ensureAuthorizedAs env payee .recipient

/-- `open`. -/
def «open» (payee operator token : Address) (salt : Word)
    (authorizedSigner : Address) (deposit : Nat) : Except TempoError ChannelReserve :=
  (require (payee ≠ 0 ∧ isTip20Prefix payee = false ∧
      ¬ (isVirtual payee = true ∧ (operator = 0 ∨ isVirtual operator = true))) .invalidPayee).bind fun _ =>
    (require (isTip20Prefix token = true) .invalidToken).bind fun _ =>
      (require (deposit ≠ 0) .zeroDeposit).bind fun _ =>
        (require (reserve.channelOpenContextHash ≠ 0) .expiringNonceHashNotSet).bind fun _ =>
          let descriptor : ChannelDescriptor :=
            { payer := msgSender, payee := payee, operator := operator, token := token, salt := salt
              authorizedSigner := authorizedSigner, expiringNonceHash := reserve.channelOpenContextHash }
          (require ((reserve.channelStates descriptor).exists = false ∧ reserve.openedThisTx descriptor = false)
              .channelAlreadyExists).bind fun _ =>
            (ensureDepositAuthorized env msgSender payee msgSender).bind fun _ =>
              ((reserve.note descriptor fun _ => {}).collect env descriptor deposit).map fun reserve =>
                let reserve := reserve.setState descriptor
                  { deposit := deposit, usesLogicalReceivePolicySender := .t12 ≤ env.spec }
                { reserve with openedThisTx := Function.update reserve.openedThisTx descriptor true }

/-- `settle`. Before T12 the state is written before the transfer; a failure reverts both. -/
def settle
    (descriptor : ChannelDescriptor) (cumulativeAmount signature : Nat) : Except TempoError ChannelReserve :=
  (reserve.loadExistingState descriptor).bind fun state =>
    (ensurePayeeOrOperator msgSender descriptor).bind fun _ =>
      (require (cumulativeAmount ≤ state.deposit) .amountExceedsDeposit).bind fun _ =>
        (require (state.settled < cumulativeAmount) .amountNotIncreasing).bind fun _ =>
          (validateVoucher recover descriptor cumulativeAmount signature).bind fun _ =>
            let delta := cumulativeAmount - state.settled
            let settled := { state with settled := cumulativeAmount }
            if .t12 ≤ env.spec then
              (reserve.payPayee env descriptor delta (state.receivePolicySender descriptor.payer)).map fun reserve =>
                reserve.setState descriptor settled
            else (reserve.setState descriptor settled).payPayee env descriptor delta tip20ChannelReserveAddress

/-- `top_up`, which cancels a close request. -/
def topUp (descriptor : ChannelDescriptor)
    (additionalDeposit : Nat) : Except TempoError ChannelReserve :=
  (reserve.loadExistingState descriptor).bind fun state =>
    (require (msgSender = descriptor.payer) .notPayer).bind fun _ =>
      if additionalDeposit = 0 ∧ state.closeRequestedAt = 0 then .ok reserve
      else
        (unlessZero additionalDeposit reserve fun reserve =>
            (require (state.deposit + additionalDeposit < 2 ^ 96) .depositOverflow).bind fun _ =>
              (ensureDepositAuthorized env msgSender descriptor.payee (state.receivePolicySender msgSender)).bind fun _ =>
                reserve.collect env descriptor additionalDeposit).map fun reserve =>
          (reserve.setState descriptor
            { state with deposit := state.deposit + additionalDeposit, closeRequestedAt := 0 }).note descriptor
              fun history => { history with requestedAt := none }

def requestClose (descriptor : ChannelDescriptor) :
    Except TempoError ChannelReserve :=
  (reserve.loadExistingState descriptor).bind fun state =>
    (require (msgSender = descriptor.payer) .notPayer).bind fun _ =>
      if state.closeRequestedAt ≠ 0 then .ok reserve
      else .ok ((reserve.setState descriptor { state with closeRequestedAt := nowU32 env }).note descriptor
        fun history => { history with requestedAt := some env.timestamp })

def deleteAround
    (deliveries : ChannelReserve → Except TempoError ChannelReserve) : Except TempoError ChannelReserve :=
  if .t12 ≤ env.spec then (deliveries reserve).map fun reserve => reserve.setState descriptor {}
  else deliveries (reserve.setState descriptor {})

def close
    (descriptor : ChannelDescriptor) (cumulativeAmount captureAmount signature : Nat) : Except TempoError ChannelReserve :=
  (reserve.loadExistingState descriptor).bind fun state =>
    (ensurePayeeOrOperator msgSender descriptor).bind fun _ =>
      (require (state.settled ≤ captureAmount ∧ captureAmount ≤ cumulativeAmount) .captureAmountInvalid).bind fun _ =>
        (require (captureAmount ≤ state.deposit) .amountExceedsDeposit).bind fun _ =>
          (if state.settled < captureAmount then validateVoucher recover descriptor cumulativeAmount signature
            else .ok ()).bind fun _ =>
              let delta := captureAmount - state.settled
              let refund := state.deposit - captureAmount
              reserve.deleteAround env descriptor fun reserve =>
                (unlessZero delta reserve fun reserve =>
                    reserve.payPayee env descriptor delta (state.receivePolicySender descriptor.payer)).bind fun reserve =>
                  unlessZero refund reserve fun reserve => reserve.refundPayer env descriptor refund

def withdraw (descriptor : ChannelDescriptor) :
    Except TempoError ChannelReserve :=
  (reserve.loadExistingState descriptor).bind fun state =>
    (require (msgSender = descriptor.payer) .notPayer).bind fun _ =>
      (require (state.closeRequestedAt ≠ 0 ∧ state.closeRequestedAt + closeGracePeriod ≤ now env) .closeNotReady).bind fun _ =>
        let refund := state.deposit - state.settled
        reserve.deleteAround env descriptor fun reserve =>
          unlessZero refund reserve fun reserve => reserve.refundPayer env descriptor refund

end ChannelReserve

inductive ChannelCall where
  | open (payee operator token : Address) (salt : Word) (authorizedSigner : Address) (deposit : Nat)
  | settle (descriptor : ChannelDescriptor) (cumulativeAmount signature : Nat)
  | topUp (descriptor : ChannelDescriptor) (additionalDeposit : Nat)
  | requestClose (descriptor : ChannelDescriptor)
  | close (descriptor : ChannelDescriptor) (cumulativeAmount captureAmount signature : Nat)
  | withdraw (descriptor : ChannelDescriptor)

/-- A call on the reserve, or the start of a transaction with its context hash. -/
inductive ChannelEvent where
  | transaction (contextHash : Word)
  | call (env : Env) (msgSender : Address) (call : ChannelCall)

namespace ChannelReserve

def call (recover : VoucherScheme) (env : Env) (reserve : ChannelReserve) (msgSender : Address) (call : ChannelCall) :
    Except TempoError ChannelReserve :=
  (require (.t5 ≤ env.spec) .unknownFunctionSelector).bind fun _ =>
    match call with
    | .open payee operator token salt authorizedSigner deposit =>
      reserve.open env msgSender payee operator token salt authorizedSigner deposit
    | .settle descriptor cumulativeAmount signature => reserve.settle recover env msgSender descriptor cumulativeAmount signature
    | .topUp descriptor additionalDeposit => reserve.topUp env msgSender descriptor additionalDeposit
    | .requestClose descriptor => reserve.requestClose env msgSender descriptor
    | .close descriptor cumulativeAmount captureAmount signature =>
      reserve.close recover env msgSender descriptor cumulativeAmount captureAmount signature
    | .withdraw descriptor => reserve.withdraw env msgSender descriptor

/-- A failing call is reverted. -/
def step (recover : VoucherScheme) (reserve : ChannelReserve) : ChannelEvent → ChannelReserve
  | .transaction contextHash => { reserve with openedThisTx := fun _ => false, channelOpenContextHash := contextHash }
  | .call env msgSender call =>
    match reserve.call recover env msgSender call with
    | .ok next => next
    | .error _ => reserve

def run (recover : VoucherScheme) (reserve : ChannelReserve) (events : List ChannelEvent) : ChannelReserve :=
  events.foldl (step recover) reserve

end ChannelReserve
end LeafageEvm.Tempo

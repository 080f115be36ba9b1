import LeafageEvm.Tempo.Base

/-! The quote tokens of the TIP-20 tokens: the factory that creates a token with its quote token, the update of
a quote token in two calls, and the paths the exchange finds along quote tokens. The loops of the source have no
bound; here they take a number of rounds, and give nothing when it runs out. -/

namespace LeafageEvm.Tempo

/-- The storage of the tokens that quote tokens depend on. Deployed are the addresses with code. -/
structure TokenGraph where
  deployed : List Address := []
  currency : Address → String := fun _ => ""
  quoteToken : Address → Address := fun _ => 0
  nextQuoteToken : Address → Address := fun _ => 0

namespace TokenGraph

def reservedSize : Nat := 1024
def usdCurrency : String := "USD"

def lowerBytes (address : Address) : Nat := address.val % 2 ^ 64

/-- `compute_tip20_address`, from the first 8 bytes of the hash. -/
def computeTip20Address (hash : Nat) : Address := Fin.ofNat (2 ^ 160) (0x20C000000000000000000000 * 2 ^ 64 + hash % 2 ^ 64)

/-- `is_tip20`. -/
def isTip20 (graph : TokenGraph) (token : Address) : Bool := isTip20Prefix token && decide (token ∈ graph.deployed)

def checkCurrency (graph : TokenGraph) (currency : String) (quoteToken : Address) : Except TempoError Unit :=
  require (currency = usdCurrency → graph.currency quoteToken = usdCurrency) .invalidQuoteToken

/-- The token's own `initialize`. -/
def initializeToken (graph : TokenGraph) (token : Address) (currency : String) (quoteToken : Address) : TokenGraph where
  deployed := token :: graph.deployed
  currency := Function.update graph.currency token currency
  quoteToken := Function.update graph.quoteToken token quoteToken
  nextQuoteToken := Function.update graph.nextQuoteToken token quoteToken

/-- `create_token`, for the hash of the sender and the salt. -/
def createToken (graph : TokenGraph) (hash : Nat) (currency : String) (quoteToken : Address) : Except TempoError TokenGraph :=
  let token := computeTip20Address hash
  (require (graph.isTip20 token = false) (.tokenAlreadyExists token)).bind fun _ =>
    (require (graph.isTip20 quoteToken = true) .invalidQuoteToken).bind fun _ =>
      (graph.checkCurrency currency quoteToken).bind fun _ =>
        (require (reservedSize ≤ hash % 2 ^ 64) .addressReserved).bind fun _ =>
          (require (isTip20Prefix token = true) .invalidToken).map fun _ =>
            graph.initializeToken token currency quoteToken

def createTokenReservedAddress (graph : TokenGraph) (token : Address) (currency : String) (quoteToken : Address) :
    Except TempoError TokenGraph :=
  (require (isTip20Prefix token = true) .invalidToken).bind fun _ =>
    (require (graph.isTip20 token = false) (.tokenAlreadyExists token)).bind fun _ =>
      (if quoteToken ≠ 0 then
          (require (token ≠ pathUsdAddress ∧ graph.isTip20 quoteToken = true) .invalidQuoteToken).bind fun _ =>
            graph.checkCurrency currency quoteToken
        else .ok ()).bind fun _ =>
          (require (lowerBytes token < reservedSize) .addressNotReserved).map fun _ =>
            graph.initializeToken token currency quoteToken

def setNextQuoteToken (graph : TokenGraph) (token newQuoteToken : Address) (isAdmin : Bool) : Except TempoError TokenGraph :=
  (require (isAdmin = true) .unauthorized).bind fun _ =>
    (require (token ≠ pathUsdAddress) .invalidQuoteToken).bind fun _ =>
      (require (graph.isTip20 newQuoteToken = true) .invalidQuoteToken).bind fun _ =>
        (graph.checkCurrency (graph.currency token) newQuoteToken).map fun _ =>
          { graph with nextQuoteToken := Function.update graph.nextQuoteToken token newQuoteToken }

def cycleWalk (graph : TokenGraph) (token : Address) : Nat → Address → Option (Except TempoError Unit)
  | 0, _ => none
  | fuel + 1, current =>
    if current = pathUsdAddress then some (.ok ())
    else if current = token then some (.error .invalidQuoteToken)
    else if isTip20Prefix current then graph.cycleWalk token fuel (graph.quoteToken current)
    else some (.error .invalidToken)

def completeQuoteTokenUpdate (graph : TokenGraph) (fuel : Nat) (token : Address) (isAdmin : Bool) :
    Option (Except TempoError TokenGraph) :=
  if isAdmin then
    (graph.cycleWalk token fuel (graph.nextQuoteToken token)).map fun walked =>
      walked.map fun _ =>
        { graph with quoteToken := Function.update graph.quoteToken token (graph.nextQuoteToken token) }
  else some (.error .unauthorized)

end TokenGraph

/-- A call, with what it finds: the hash of its sender and salt, or whether its sender is the token's admin. -/
inductive GraphCall where
  | createToken (hash : Nat) (currency : String) (quoteToken : Address)
  | createTokenReservedAddress (token : Address) (currency : String) (quoteToken : Address)
  | setNextQuoteToken (token newQuoteToken : Address) (isAdmin : Bool)
  | completeQuoteTokenUpdate (token : Address) (isAdmin : Bool)

namespace TokenGraph

/-- A token without code rejects every call. -/
def call (graph : TokenGraph) (fuel : Nat) : GraphCall → Option (Except TempoError TokenGraph)
  | .createToken hash currency quoteToken => some (graph.createToken hash currency quoteToken)
  | .createTokenReservedAddress token currency quoteToken =>
    some (graph.createTokenReservedAddress token currency quoteToken)
  | .setNextQuoteToken token newQuoteToken isAdmin =>
    if token ∈ graph.deployed then some (graph.setNextQuoteToken token newQuoteToken isAdmin)
    else some (.error .uninitialized)
  | .completeQuoteTokenUpdate token isAdmin =>
    if token ∈ graph.deployed then graph.completeQuoteTokenUpdate fuel token isAdmin
    else some (.error .uninitialized)

/-- A failing call is reverted. -/
def apply (fuel : Nat) (graph : TokenGraph) (call : GraphCall) : Option TokenGraph :=
  (graph.call fuel call).map fun outcome =>
    match outcome with
    | .ok next => next
    | .error _ => graph

/-- A run gives nothing if one of its loops runs out. -/
def run (fuel : Nat) (graph : TokenGraph) (calls : List GraphCall) : Option TokenGraph := calls.foldlM (apply fuel) graph

def findPathToRoot (graph : TokenGraph) : Nat → Address → Option (Except TempoError (List Address))
  | 0, _ => none
  | fuel + 1, token =>
    if token = pathUsdAddress then some (.ok [token])
    else if isTip20Prefix token then
      (graph.findPathToRoot fuel (graph.quoteToken token)).map fun found => found.map fun path => token :: path
    else some (.error .invalidToken)

end TokenGraph

/-- What the exchange reads beside the quote tokens: the fork, which tokens are paused and which pairs of base
and quote have a book. -/
structure Dex where
  spec : TempoHardfork
  paused : Address → Bool
  books : Address × Address → Bool

/-- A hop: the book and whether base is given for quote. -/
abbrev Hop := (Address × Address) × Bool

namespace Dex

/-- One round of `validate_and_build_route`. -/
def buildHop (dex : Dex) (graph : TokenGraph) (tokenIn tokenOut : Address) : Except TempoError Hop :=
  (require (isTip20Prefix tokenIn = true) .invalidToken).bind fun _ =>
    (require (.t3 ≤ dex.spec → dex.paused tokenIn = false) .contractPaused).bind fun _ =>
      (if graph.quoteToken tokenIn = tokenOut then .ok (tokenIn, tokenOut)
        else
          (require (isTip20Prefix tokenOut = true) .invalidToken).bind fun _ =>
            if graph.quoteToken tokenOut = tokenIn then .ok (tokenOut, tokenIn) else .error .pairDoesNotExist).bind fun pair =>
        (require (dex.books pair = true) .pairDoesNotExist).map fun _ => (pair, decide (tokenIn = pair.1))

def validateAndBuildRoute (dex : Dex) (graph : TokenGraph) : List Address → Except TempoError (List Hop)
  | tokenIn :: tokenOut :: rest =>
    (dex.buildHop graph tokenIn tokenOut).bind fun hop =>
      (dex.validateAndBuildRoute graph (tokenOut :: rest)).map fun route => hop :: route
  | _ => .ok []

/-- The path up to the common token. -/
def takeThrough (lca : Address) : List Address → List Address
  | [] => []
  | token :: rest => if token = lca then [token] else token :: takeThrough lca rest

def joinPaths (dex : Dex) (graph : TokenGraph) (pathIn pathOut : List Address) : Except TempoError (List Hop) :=
  match pathIn.find? fun token => decide (token ∈ pathOut) with
  | none => .error .pairDoesNotExist
  | some lca =>
    dex.validateAndBuildRoute graph (takeThrough lca pathIn ++ (pathOut.takeWhile fun token => decide (token ≠ lca)).reverse)

def findTradePath (dex : Dex) (graph : TokenGraph) (fuel : Nat) (tokenIn tokenOut : Address) :
    Option (Except TempoError (List Hop)) :=
  if tokenIn = tokenOut then some (.error .identicalTokens)
  else if isTip20Prefix tokenIn = false ∨ isTip20Prefix tokenOut = false then some (.error .invalidToken)
  else if graph.quoteToken tokenIn = tokenOut ∨ graph.quoteToken tokenOut = tokenIn then
    some (dex.validateAndBuildRoute graph [tokenIn, tokenOut])
  else
    (graph.findPathToRoot fuel tokenIn).bind fun foundIn =>
      match foundIn with
      | .error error => some (.error error)
      | .ok pathIn =>
        (graph.findPathToRoot fuel tokenOut).map fun foundOut => foundOut.bind (dex.joinPaths graph pathIn)

end Dex
end LeafageEvm.Tempo

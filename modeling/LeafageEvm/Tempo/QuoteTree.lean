import LeafageEvm.Leads
import LeafageEvm.Tempo.QuoteToken
import Mathlib.Data.List.Chain
import Mathlib.Data.List.TakeWhile

/-! The quote tokens form a forest, so the loops along their paths end. -/

namespace LeafageEvm.Tempo
open TokenGraph Nat Option List

namespace TokenGraph
open Function
variable {quote : Address} {currency : String} {isAdmin : Bool} {fuel' : Nat}
variable {graph graph' : TokenGraph} {token current : Address} {path : List Address} {fuel : Nat}

def follow (graph : TokenGraph) (token : Address) : Option Address :=
  if graph.quoteToken token = 0 then none else some (graph.quoteToken token)

theorem follow_eq_none : graph.follow token = none ↔ graph.quoteToken token = 0 := by
  unfold follow
  split <;> simp [*]

theorem follow_eq_some : graph.follow token = some quote ↔ quote ≠ 0 ∧ graph.quoteToken token = quote := by
  unfold follow
  split
  · rename_i hzero
    rw [hzero]
    constructor
    · nofun
    · rintro ⟨hne, rfl⟩
      exact absurd rfl hne
  rename_i hne
  rw [some_inj]
  constructor
  · rintro rfl
    exact ⟨hne, rfl⟩
  · exact And.right

/-- References from deployed tokens to deployed tokens, in USD from USD, none from pathUSD. Storage starts as
zero. -/
structure Refers (deployed : List Address) (currency : Address → String) (reference : Address → Address) : Prop where
  undeployed : ∀ token, token ∉ deployed → reference token = 0
  mem : ∀ token, reference token ≠ 0 → reference token ∈ deployed
  usd : ∀ token, currency token = usdCurrency → reference token ≠ 0 → currency (reference token) = usdCurrency
  pathUsd : reference pathUsdAddress = 0

section Refers
variable {deployed : List Address} {currency : Address → String} {reference : Address → Address}

theorem Refers.update (h : Refers deployed currency reference) (htoken : token ∈ deployed) (hpathUsd : token ≠ pathUsdAddress)
    (hquote : quote ∈ deployed) (husd : currency token = usdCurrency → currency quote = usdCurrency) :
    Refers deployed currency (update reference token quote) := by
  constructor
  · intro other hother
    have hne : other ≠ token := fun heq => hother (heq ▸ htoken)
    rw [update_of_ne hne]
    exact h.undeployed other hother
  · intro other
    by_cases hother : other = token
    · rw [hother, update_self]
      exact fun _ => hquote
    · rw [update_of_ne hother]
      exact h.mem other
  · intro other
    by_cases hother : other = token
    · rw [hother, update_self]
      exact fun hcurrency _ => husd hcurrency
    · rw [update_of_ne hother]
      exact h.usd other
  · rw [update_of_ne hpathUsd.symm]
    exact h.pathUsd

theorem Refers.create (h : Refers deployed currency reference) {newCurrency : String} (htoken : token ∉ deployed)
    (hquote : quote ≠ 0 → token ≠ pathUsdAddress ∧ quote ∈ deployed ∧ (newCurrency = usdCurrency → currency quote = usdCurrency)) :
    Refers (token :: deployed) (Function.update currency token newCurrency) (Function.update reference token quote) := by
  have hold : ∀ other, other ∈ deployed → Function.update currency token newCurrency other = currency other := by
    intro _ hother
    refine update_of_ne ?_ ..
    rintro rfl
    exact htoken hother
  constructor
  · intro other hother
    obtain ⟨hne, hdeployed⟩ := not_or.mp (mem_cons.not.mp hother)
    rw [update_of_ne hne]
    exact h.undeployed other hdeployed
  · intro other
    by_cases hother : other = token
    · rw [hother, update_self]
      exact fun hne => .tail _ (hquote hne).2.1
    · rw [update_of_ne hother]
      exact fun hne => .tail _ (h.mem other hne)
  · intro other
    by_cases hother : other = token
    · rw [hother, update_self, update_self]
      intro hcurrency hne
      rw [hold quote (hquote hne).2.1]
      exact (hquote hne).2.2 hcurrency
    rw [update_of_ne hother, update_of_ne hother]
    intro hcurrency hne
    rw [hold _ (h.mem other hne)]
    exact h.usd other hcurrency hne
  · by_cases htokenPath : pathUsdAddress = token
    · rw [htokenPath, update_self]
      by_contra hne
      exact (hquote hne).1 htokenPath.symm
    · rw [update_of_ne htokenPath]
      exact h.pathUsd

end Refers

/-- What the calls keep. -/
structure Sound (graph : TokenGraph) : Prop where
  quote : Refers graph.deployed graph.currency graph.quoteToken
  next : Refers graph.deployed graph.currency graph.nextQuoteToken
  /-- Only a reserved address has no quote token. -/
  reserved : ∀ token ∈ graph.deployed, graph.quoteToken token = 0 → lowerBytes token < reservedSize
  leads : ∀ token, ∃ path, Leads graph.follow token path

theorem Sound.empty : Sound {} where
  quote := ⟨fun _ _ => rfl, fun _ h => absurd rfl h, fun _ _ h => absurd rfl h, rfl⟩
  next := ⟨fun _ _ => rfl, fun _ h => absurd rfl h, fun _ _ h => absurd rfl h, rfl⟩
  reserved _ h := absurd h not_mem_nil
  leads token := ⟨[token], .last rfl⟩

section
variable (h : Sound graph) (hpath : Leads graph.follow token path)
include h hpath
theorem Sound.mem_deployed (htoken : token ∈ graph.deployed) : ∀ other ∈ path, other ∈ graph.deployed := by
  refine hpath.forall_mem (P := (· ∈ graph.deployed)) ?_ htoken
  intro a b _ hb
  obtain ⟨hne, rfl⟩ := follow_eq_some.mp hb
  exact h.quote.mem a hne

theorem Sound.length_le : path.length ≤ graph.deployed.length + 1 := by
  by_cases htoken : token ∈ graph.deployed
  · have hsub := (subperm_of_subset hpath.nodup (h.mem_deployed hpath htoken)).length_le
    omega
  · rw [hpath.unique (.last (follow_eq_none.mpr (h.quote.undeployed token htoken)))]
    exact le_add_left _ _

theorem Sound.usd (htoken : graph.currency token = usdCurrency) :
    ∀ other ∈ path, graph.currency other = usdCurrency := by
  refine hpath.forall_mem (P := fun other => graph.currency other = usdCurrency) ?_ htoken
  intro a b ha hb
  obtain ⟨hne, rfl⟩ := follow_eq_some.mp hb
  exact h.quote.usd a ha hne
end

theorem follow_update (graph : TokenGraph) (token quote : Address) {graph' : TokenGraph}
    (hquote : graph'.quoteToken = update graph.quoteToken token quote) :
    graph'.follow = update graph.follow token (if quote = 0 then none else some quote) := by
  funext other
  unfold follow
  rw [hquote]
  by_cases hother : other = token
  · rw [hother, update_self, update_self]
  · rw [update_of_ne hother, update_of_ne hother]

theorem isTip20_eq_true : graph.isTip20 token = true ↔ isTip20Prefix token = true ∧ token ∈ graph.deployed := by
  unfold isTip20
  rw [Bool.and_eq_true, decide_eq_true_iff]

theorem isTip20Prefix_ne_zero (h : isTip20Prefix token = true) : token ≠ 0 := by
  rintro rfl
  exact absurd h (by decide)

theorem not_mem_of_isTip20 (htip20 : isTip20Prefix token = true) (h : graph.isTip20 token = false) : token ∉ graph.deployed := by
  intro hmem
  rw [isTip20_eq_true.mpr ⟨htip20, hmem⟩] at h
  cases h

/-- What a creation has checked. -/
structure Creates (graph : TokenGraph) (token : Address) (currency : String) (quote : Address) : Prop where
  new : token ∉ graph.deployed
  quoted : quote ≠ 0 → token ≠ pathUsdAddress ∧ quote ∈ graph.deployed ∧
    (currency = usdCurrency → graph.currency quote = usdCurrency)
  reserved : quote = 0 → lowerBytes token < reservedSize

theorem lowerBytes_computeTip20Address (hash : Nat) : lowerBytes (computeTip20Address hash) = hash % 2 ^ 64 := by
  unfold lowerBytes computeTip20Address
  simp only [Fin.val_ofNat]
  omega

theorem createToken_eq_ok {hash : Nat} (hcall : graph.createToken hash currency quote = .ok graph') :
    Creates graph (computeTip20Address hash) currency quote ∧
      graph' = graph.initializeToken (computeTip20Address hash) currency quote := by
  obtain ⟨hnew, hcall⟩ := check_ok hcall
  obtain ⟨hquote, hcall⟩ := check_ok hcall
  obtain ⟨husd, hcall⟩ := check_ok hcall
  obtain ⟨hreserved, hcall⟩ := check_ok hcall
  obtain ⟨_, htip20, rfl⟩ := map_ok hcall
  obtain ⟨hquotePrefix, hmem⟩ := isTip20_eq_true.mp hquote
  refine ⟨⟨not_mem_of_isTip20 (require_eq_ok.mp htip20) hnew, fun _ => ⟨?_, hmem, husd⟩, ?_⟩, rfl⟩
  · -- pathUSD is a reserved address
    intro heq
    have hlower := lowerBytes_computeTip20Address hash
    rw [heq] at hlower
    rw [← hlower] at hreserved
    exact absurd hreserved (by decide)
  · intro hzero
    exact absurd hzero (isTip20Prefix_ne_zero hquotePrefix)

theorem createTokenReservedAddress_eq_ok (hcall : graph.createTokenReservedAddress token currency quote = .ok graph') :
    Creates graph token currency quote ∧ graph' = graph.initializeToken token currency quote := by
  obtain ⟨htip20, hcall⟩ := check_ok hcall
  obtain ⟨hnew, hcall⟩ := check_ok hcall
  obtain ⟨_, hchecks, hcall⟩ := bind_ok hcall
  obtain ⟨_, hreserved, rfl⟩ := map_ok hcall
  refine ⟨⟨not_mem_of_isTip20 htip20 hnew, fun hne => ?_, fun _ => require_eq_ok.mp hreserved⟩, rfl⟩
  rw [if_pos hne] at hchecks
  obtain ⟨⟨hpathUsd, hquote⟩, husd⟩ := check_ok hchecks
  exact ⟨hpathUsd, (isTip20_eq_true.mp hquote).2, require_eq_ok.mp husd⟩

theorem cycleWalk_zero (graph : TokenGraph) (token : Address) (fuel : Nat) :
    graph.cycleWalk token (fuel + 1) 0 = some (.error .invalidQuoteToken) ∨
      graph.cycleWalk token (fuel + 1) 0 = some (.error .invalidToken) := by
  unfold cycleWalk
  by_cases hzero : 0 = token
  · exact .inl (if_pos hzero)
  · exact .inr (if_neg hzero)

theorem exists_cycleWalk (hpath : Leads graph.follow current path) (token : Address) (hfuel : path.length + 1 ≤ fuel) :
    ∃ outcome, graph.cycleWalk token fuel current = some outcome := by
  induction hpath generalizing fuel with
  | last hnone =>
    obtain ⟨fuel, rfl⟩ := Nat.exists_eq_add_of_le' hfuel
    rw [length_singleton]
    rw [cycleWalk, follow_eq_none.mp hnone]
    split
    · exact ⟨_, rfl⟩
    split
    · exact ⟨_, rfl⟩
    split
    · rcases graph.cycleWalk_zero token fuel with h | h <;> exact ⟨_, h⟩
    · exact ⟨_, rfl⟩
  | cons hsome _ ih =>
    cases fuel with
    | zero => exact absurd hfuel (not_succ_le_zero _)
    | succ =>
      rw [cycleWalk, (follow_eq_some.mp hsome).2]
      split
      · exact ⟨_, rfl⟩
      split
      · exact ⟨_, rfl⟩
      split
      · exact ih (le_of_succ_le_succ hfuel)
      · exact ⟨_, rfl⟩

section
variable (hwalk : graph.cycleWalk token fuel current = some (.ok ()))
include hwalk
theorem not_mem_of_cycleWalk (hpathUsd : graph.quoteToken pathUsdAddress = 0) (htoken : token ≠ pathUsdAddress)
    (hpath : Leads graph.follow current path) : token ∉ path := by
  induction hpath generalizing fuel with
  | @last current hnone =>
    rw [mem_singleton]
    rintro rfl
    cases fuel with
    | zero => cases hwalk
    | succ =>
      rw [cycleWalk, if_neg htoken, if_pos rfl] at hwalk
      cases hwalk
  | @cons current quote path hsome hrest ih =>
    obtain ⟨hne, hquote⟩ := follow_eq_some.mp hsome
    cases fuel with
    | zero => cases hwalk
    | succ =>
      have hcurrent : current ≠ pathUsdAddress := by
        rintro rfl
        exact hne (hquote.symm.trans hpathUsd)
      rw [cycleWalk, if_neg hcurrent] at hwalk
      split at hwalk
      · cases hwalk
      split at hwalk
      · rename_i hother _
        rw [hquote] at hwalk
        rw [mem_cons, not_or]
        exact ⟨Ne.symm hother, ih hwalk⟩
      · cases hwalk

/-- The walk does not succeed from nowhere. -/
theorem cycleWalk_ne_zero : current ≠ 0 := by
  rintro rfl
  cases fuel with
  | zero => cases hwalk
  | succ fuel =>
    rcases graph.cycleWalk_zero token fuel with h | h
    · rw [h] at hwalk
      cases hwalk
    · rw [h] at hwalk
      cases hwalk
end

section
variable (h : Sound graph)
include h
theorem Sound.leads_update (hquote : graph'.quoteToken = update graph.quoteToken token quote)
    (hpath : quote ≠ 0 → ∃ path, Leads graph.follow quote path ∧ token ∉ path) (other : Address) :
    ∃ path, Leads graph'.follow other path := by
  rw [follow_update graph token quote hquote]
  obtain ⟨_, hother⟩ := h.leads other
  refine Leads.exists_update ?_ hother
  intro b hb
  split at hb
  · cases hb
  · rename_i hne
    cases hb
    exact hpath hne

/-! ### The calls -/

theorem Sound.initializeToken (hcreates : Creates graph token currency quote) :
    Sound (graph.initializeToken token currency quote) := by
  constructor
  · exact h.quote.create hcreates.new hcreates.quoted
  · exact h.next.create hcreates.new hcreates.quoted
  · intro other hother
    show update graph.quoteToken token quote other = 0 → _
    by_cases heq : other = token
    · rw [heq, update_self]
      exact hcreates.reserved
    · rw [update_of_ne heq]
      exact h.reserved other ((mem_cons.mp hother).resolve_left heq)
  · refine h.leads_update rfl ?_
    intro hne
    obtain ⟨path, hpath⟩ := h.leads quote
    exact ⟨path, hpath, fun hmem => hcreates.new (h.mem_deployed hpath (hcreates.quoted hne).2.1 token hmem)⟩

theorem Sound.setNextQuoteToken {newQuoteToken : Address} (htoken : token ∈ graph.deployed)
    (hcall : graph.setNextQuoteToken token newQuoteToken isAdmin = .ok graph') :
    Sound graph' ∧ graph'.deployed = graph.deployed := by
  obtain ⟨_, hcall⟩ := rest_ok hcall
  obtain ⟨hpathUsd, hcall⟩ := check_ok hcall
  obtain ⟨hquote, hcall⟩ := check_ok hcall
  obtain ⟨_, husd, rfl⟩ := map_ok hcall
  have hnext := h.next.update htoken hpathUsd (isTip20_eq_true.mp hquote).2 (require_eq_ok.mp husd)
  exact ⟨{ h with next := hnext }, rfl⟩

/-! ### The loops -/

theorem Sound.completeQuoteTokenUpdate (htoken : token ∈ graph.deployed)
    (hcall : graph.completeQuoteTokenUpdate fuel token isAdmin = some (.ok graph')) :
    Sound graph' ∧ graph'.deployed = graph.deployed := by
  unfold TokenGraph.completeQuoteTokenUpdate at hcall
  split at hcall
  · obtain ⟨_, hwalk, hcall⟩ := map_eq_some_iff.mp hcall
    obtain ⟨_, rfl, rfl⟩ := map_ok hcall
    have hne := cycleWalk_ne_zero hwalk
    have hmem := h.next.mem token hne
    have hpathUsd : token ≠ pathUsdAddress := by
      rintro rfl
      exact hne h.next.pathUsd
    refine ⟨?_, rfl⟩
    constructor
    · exact h.quote.update htoken hpathUsd hmem fun husd => h.next.usd token husd hne
    · exact h.next
    · intro other hother
      show update graph.quoteToken token (graph.nextQuoteToken token) other = 0 → _
      by_cases heq : other = token
      · rw [heq, update_self]
        exact fun hzero => absurd hzero hne
      · rw [update_of_ne heq]
        exact h.reserved other hother
    · refine h.leads_update rfl ?_
      intro _
      obtain ⟨path, hpath⟩ := h.leads (graph.nextQuoteToken token)
      exact ⟨path, hpath, not_mem_of_cycleWalk hwalk h.quote.pathUsd hpathUsd hpath⟩
  · cases hcall
end

/-! ### Runs -/

section
variable (hle : fuel ≤ fuel')
include hle
/-- More rounds change nothing. -/
theorem cycleWalk_mono {outcome : Except TempoError Unit}
    (h : graph.cycleWalk token fuel current = some outcome) : graph.cycleWalk token fuel' current = some outcome := by
  induction fuel generalizing fuel' current with
  | zero => cases h
  | succ _ ih =>
    obtain ⟨_, rfl⟩ := Nat.exists_eq_add_of_le' hle
    rw [← add_assoc]
    rw [cycleWalk] at h ⊢
    split_ifs at h ⊢
    · exact h
    · exact h
    · exact ih (Nat.le_add_left ..) h
    · exact h

theorem call_mono {call : GraphCall} {outcome : Except TempoError TokenGraph}
    (h : graph.call fuel call = some outcome) : graph.call fuel' call = some outcome := by
  cases call with
  | createToken | createTokenReservedAddress | setNextQuoteToken => exact h
  | completeQuoteTokenUpdate =>
    unfold call completeQuoteTokenUpdate at h ⊢
    simp only at h ⊢
    split_ifs at h ⊢
    · obtain ⟨walked, hwalk, houtcome⟩ := map_eq_some_iff.mp h
      exact map_eq_some_iff.mpr ⟨walked, cycleWalk_mono hle hwalk, houtcome⟩
    · exact h
    · exact h

theorem run_mono {calls : List GraphCall} (h : graph.run fuel calls = some graph') :
    graph.run fuel' calls = some graph' := by
  induction calls generalizing graph with
  | nil => exact h
  | cons call calls ih =>
    unfold run at h ih ⊢
    obtain ⟨next, hnext, hrest⟩ := bind_eq_some_iff.mp h
    obtain ⟨outcome, hcall, houtcome⟩ := map_eq_some_iff.mp hnext
    exact bind_eq_some_iff.mpr ⟨next, map_eq_some_iff.mpr ⟨outcome, call_mono hle hcall, houtcome⟩, ih hrest⟩

theorem findPathToRoot_mono {outcome : Except TempoError (List Address)}
    (h : graph.findPathToRoot fuel token = some outcome) : graph.findPathToRoot fuel' token = some outcome := by
  induction fuel generalizing fuel' token outcome with
  | zero => cases h
  | succ _ ih =>
    obtain ⟨_, rfl⟩ := Nat.exists_eq_add_of_le' hle
    rw [← add_assoc]
    rw [findPathToRoot] at h ⊢
    split_ifs at h ⊢
    · exact h
    · obtain ⟨found, hfound, houtcome⟩ := map_eq_some_iff.mp h
      exact map_eq_some_iff.mpr ⟨found, ih (Nat.le_add_left ..) hfound, houtcome⟩
    · exact h
end

section
variable (h : Sound graph)
include h
theorem Sound.exists_cycleWalk (token current : Address) (hfuel : graph.deployed.length + 2 ≤ fuel) :
    ∃ outcome, graph.cycleWalk token fuel current = some outcome := by
  obtain ⟨_, hpath⟩ := h.leads current
  have hlength := h.length_le hpath
  exact TokenGraph.exists_cycleWalk hpath token (by omega)

theorem Sound.exists_call (call : GraphCall) (hfuel : graph.deployed.length + 2 ≤ fuel) :
    ∃ outcome, graph.call fuel call = some outcome := by
  cases call with
  | createToken | createTokenReservedAddress => exact ⟨_, rfl⟩
  | setNextQuoteToken =>
    unfold call
    simp only
    split <;> exact ⟨_, rfl⟩
  | completeQuoteTokenUpdate token =>
    unfold TokenGraph.call TokenGraph.completeQuoteTokenUpdate
    simp only
    split
    · split
      · obtain ⟨_, hwalk⟩ := h.exists_cycleWalk token (graph.nextQuoteToken token) hfuel
        rw [hwalk]
        exact ⟨_, rfl⟩
      · exact ⟨_, rfl⟩
    · exact ⟨_, rfl⟩

theorem Sound.call {call : GraphCall} (hcall : graph.call fuel call = some (.ok graph')) :
    Sound graph' ∧ graph'.deployed.length ≤ graph.deployed.length + 1 := by
  cases call with
  | createToken =>
    obtain ⟨hcreates, rfl⟩ := createToken_eq_ok (some.inj hcall)
    exact ⟨h.initializeToken hcreates, le_rfl⟩
  | createTokenReservedAddress =>
    obtain ⟨hcreates, rfl⟩ := createTokenReservedAddress_eq_ok (some.inj hcall)
    exact ⟨h.initializeToken hcreates, le_rfl⟩
  | setNextQuoteToken =>
    unfold TokenGraph.call at hcall
    simp only at hcall
    split at hcall
    · rename_i htoken
      obtain ⟨hsound, hdeployed⟩ := h.setNextQuoteToken htoken (some.inj hcall)
      exact ⟨hsound, hdeployed ▸ le_succ _⟩
    · cases hcall
  | completeQuoteTokenUpdate =>
    unfold TokenGraph.call at hcall
    simp only at hcall
    split at hcall
    · rename_i htoken
      obtain ⟨hsound, hdeployed⟩ := h.completeQuoteTokenUpdate htoken hcall
      exact ⟨hsound, hdeployed ▸ le_succ _⟩
    · cases hcall

/-- **A call ends and keeps the graph sound.** -/
theorem Sound.apply (call : GraphCall) (hfuel : graph.deployed.length + 2 ≤ fuel) :
    ∃ next, apply fuel graph call = some next ∧ Sound next ∧ next.deployed.length ≤ graph.deployed.length + 1 := by
  obtain ⟨outcome, hcall⟩ := h.exists_call call hfuel
  unfold TokenGraph.apply
  rw [hcall]
  cases outcome with
  | error error => exact ⟨graph, rfl, h, le_succ _⟩
  | ok next => exact ⟨next, rfl, h.call hcall⟩

theorem Sound.run (calls : List GraphCall) (hfuel : graph.deployed.length + calls.length + 2 ≤ fuel) :
    ∃ final, graph.run fuel calls = some final ∧ Sound final ∧
      final.deployed.length ≤ graph.deployed.length + calls.length := by
  induction calls generalizing graph with
  | nil => exact ⟨_, rfl, h, le_rfl⟩
  | cons call calls ih =>
    rw [length_cons] at hfuel ⊢
    have hcallFuel : graph.deployed.length + 2 ≤ fuel := by omega
    obtain ⟨next, hnext, hsound, hgrows⟩ := h.apply call hcallFuel
    have hnextFuel : next.deployed.length + calls.length + 2 ≤ fuel := by omega
    obtain ⟨final, hrun, hfinal, hlength⟩ := ih hsound hnextFuel
    refine ⟨final, ?_, hfinal, by omega⟩
    unfold run
    rw [foldlM_cons, hnext]
    exact hrun
end

theorem exists_findPathToRoot (hpath : Leads graph.follow token path) (hfuel : path.length + 1 ≤ fuel) :
    ∃ outcome, graph.findPathToRoot fuel token = some outcome := by
  induction hpath generalizing fuel with
  | last hnone =>
    obtain ⟨_, rfl⟩ := Nat.exists_eq_add_of_le' hfuel
    rw [length_singleton]
    rw [findPathToRoot, follow_eq_none.mp hnone]
    split
    · exact ⟨_, rfl⟩
    split <;> exact ⟨_, rfl⟩
  | cons hsome _ ih =>
    cases fuel with
    | zero => exact absurd hfuel (not_succ_le_zero _)
    | succ =>
      rw [findPathToRoot, (follow_eq_some.mp hsome).2]
      split
      · exact ⟨_, rfl⟩
      split
      · obtain ⟨_, hrest⟩ := ih (le_of_succ_le_succ hfuel)
        rw [hrest]
        exact ⟨_, rfl⟩
      · exact ⟨_, rfl⟩

theorem Sound.exists_findPathToRoot (h : Sound graph) (token : Address) (hfuel : graph.deployed.length + 2 ≤ fuel) :
    ∃ outcome, graph.findPathToRoot fuel token = some outcome := by
  obtain ⟨_, hpath⟩ := h.leads token
  have hlength := h.length_le hpath
  exact TokenGraph.exists_findPathToRoot hpath (by omega)

theorem leads_of_findPathToRoot (hpathUsd : graph.quoteToken pathUsdAddress = 0)
    (h : graph.findPathToRoot fuel token = some (.ok path)) : Leads graph.follow token path := by
  induction fuel generalizing token path with
  | zero => cases h
  | succ fuel ih =>
    rw [findPathToRoot] at h
    split at h
    · rename_i htoken
      cases h
      rw [htoken]
      exact .last (follow_eq_none.mpr hpathUsd)
    split at h
    · obtain ⟨found, hfound, h⟩ := map_eq_some_iff.mp h
      obtain ⟨_, rfl, rfl⟩ := map_ok h
      refine .cons (follow_eq_some.mpr ⟨?_, rfl⟩) (ih hfound)
      -- nothing is found from the zero address
      intro hzero
      rw [hzero] at hfound
      cases fuel with
      | zero | _ => cases hfound
    · cases h

end TokenGraph

/-! ### Routes -/

namespace Dex

variable {dex : Dex} {graph : TokenGraph} {tokenIn tokenOut lca : Address} {path pathIn pathOut : List Address}
  {route : List Hop}

def hopBetween (graph : TokenGraph) (tokenIn tokenOut : Address) : Hop :=
  if graph.quoteToken tokenIn = tokenOut then ((tokenIn, tokenOut), true) else ((tokenOut, tokenIn), false)

/-- Two tokens whose pair has a book. -/
def Adjacent (dex : Dex) (graph : TokenGraph) (tokenIn tokenOut : Address) : Prop :=
  (graph.quoteToken tokenIn = tokenOut ∨ graph.quoteToken tokenOut = tokenIn) ∧
    dex.books (hopBetween graph tokenIn tokenOut).1 = true

theorem buildHop_eq_ok {hop : Hop} (hne : tokenIn ≠ tokenOut) (h : dex.buildHop graph tokenIn tokenOut = .ok hop) :
    dex.Adjacent graph tokenIn tokenOut ∧ hop = hopBetween graph tokenIn tokenOut := by
  iterate 2 obtain ⟨_, h⟩ := rest_ok h
  obtain ⟨_, hpair, h⟩ := bind_ok h
  obtain ⟨_, hbook, rfl⟩ := map_ok h
  have hbook := require_eq_ok.mp hbook
  unfold Adjacent hopBetween
  split at hpair
  · rename_i hquote
    cases hpair
    rw [if_pos hquote]
    exact ⟨⟨.inl hquote, hbook⟩, by rw [decide_eq_true rfl]⟩
  rename_i hquote
  obtain ⟨_, hpair⟩ := rest_ok hpair
  split at hpair
  · rename_i hquote'
    cases hpair
    rw [if_neg hquote]
    exact ⟨⟨.inr hquote', hbook⟩, by rw [decide_eq_false hne]⟩
  · cases hpair

theorem validateAndBuildRoute_eq_ok (hnodup : path.Nodup) (h : dex.validateAndBuildRoute graph path = .ok route) :
    path.IsChain (dex.Adjacent graph) ∧ route = zipWith (hopBetween graph) path path.tail := by
  induction path generalizing route with
  | nil =>
    cases h
    exact ⟨.nil, rfl⟩
  | cons tokenIn rest ih =>
    cases rest with
    | nil =>
      cases h
      exact ⟨.singleton _, rfl⟩
    | cons tokenOut =>
      obtain ⟨hop, hhop, h⟩ := bind_ok h
      obtain ⟨hops, hhops, rfl⟩ := map_ok h
      obtain ⟨hnot, hnodup⟩ := nodup_cons.mp hnodup
      have hne : tokenIn ≠ tokenOut := fun heq => hnot (heq ▸ mem_cons_self)
      obtain ⟨hadjacent, rfl⟩ := buildHop_eq_ok hne hhop
      obtain ⟨hchain, rfl⟩ := ih hnodup hhops
      exact ⟨isChain_cons_cons.mpr ⟨hadjacent, hchain⟩, rfl⟩

theorem takeThrough_eq (hmem : lca ∈ path) : takeThrough lca path = path.takeWhile (fun token => decide (token ≠ lca)) ++ [lca] := by
  induction path with
  | nil => cases hmem
  | cons token _ ih =>
    rw [takeThrough]
    by_cases htoken : token = lca
    · rw [if_pos htoken, takeWhile_cons_of_neg (by simpa using htoken), htoken]
      rfl
    · rw [if_neg htoken, takeWhile_cons_of_pos (by simpa using htoken),
        ih ((mem_cons.mp hmem).resolve_left (Ne.symm htoken))]
      rfl

section
variable (hfind : pathIn.find? (fun token => decide (token ∈ pathOut)) = some lca)
include hfind
theorem not_mem_of_takeWhile_find? :
    ∀ token ∈ pathIn.takeWhile (fun token => decide (token ≠ lca)), token ∉ pathOut := by
  obtain ⟨hlca, before, after, rfl, hbefore⟩ := find?_eq_some_iff_append.mp hfind
  intro token htoken
  have hcut : (before ++ lca :: after).takeWhile (fun token => decide (token ≠ lca)) = before := by
    rw [takeWhile_append_of_pos, takeWhile_cons_of_neg (by simp), append_nil]
    intro other hother
    have hnot := hbefore other hother
    rw [decide_eq_true_iff]
    rintro rfl
    simp only [hlca] at hnot
    cases hnot
  rw [hcut] at htoken
  simpa using hbefore token htoken

theorem joined_simple (hin : Leads graph.follow tokenIn pathIn) (hout : Leads graph.follow tokenOut pathOut) :
    (takeThrough lca pathIn ++ (pathOut.takeWhile fun token => decide (token ≠ lca)).reverse).Nodup ∧
      (takeThrough lca pathIn ++ (pathOut.takeWhile fun token => decide (token ≠ lca)).reverse).head? = some tokenIn ∧
      (takeThrough lca pathIn ++ (pathOut.takeWhile fun token => decide (token ≠ lca)).reverse).getLast? = some tokenOut := by
  have hmemIn : lca ∈ pathIn := mem_of_find?_eq_some hfind
  have hbefore := not_mem_of_takeWhile_find? hfind
  have hhead := hin.head?_eq
  have hlast := hout.head?_eq
  rw [takeThrough_eq hmemIn]
  refine ⟨?_, ?_, ?_⟩
  · have hnodupIn : (pathIn.takeWhile fun token => decide (token ≠ lca)).Nodup := hin.nodup.sublist (takeWhile_sublist _)
    have hnodupOut : (pathOut.takeWhile fun token => decide (token ≠ lca)).Nodup := hout.nodup.sublist (takeWhile_sublist _)
    rw [nodup_append', nodup_reverse, nodup_append']
    refine ⟨⟨hnodupIn, nodup_singleton _, ?_⟩, hnodupOut, ?_⟩
    · intro _ htoken hlca
      cases mem_singleton.mp hlca
      simpa using mem_takeWhile_imp htoken
    · intro token htoken hrest
      rw [mem_reverse] at hrest
      rcases mem_append.mp htoken with htoken | htoken
      · exact hbefore token htoken ((takeWhile_sublist _).subset hrest)
      · cases mem_singleton.mp htoken
        simpa using mem_takeWhile_imp hrest
  · cases pathIn with
    | nil => cases hhead
    | cons =>
      cases hhead
      by_cases htoken : tokenIn = lca
      · rw [takeWhile_cons_of_neg (by simpa using htoken), htoken]
        rfl
      · rw [takeWhile_cons_of_pos (by simpa using htoken)]
        rfl
  · cases pathOut with
    | nil => cases hlast
    | cons =>
      cases hlast
      by_cases htoken : tokenOut = lca
      · rw [htoken]
        simp
      · rw [takeWhile_cons_of_pos (by simpa using htoken), reverse_cons, ← append_assoc]
        exact getLast?_concat
end

/-- **A route found is a simple path of existing pairs.** -/
theorem findTradePath_eq_ok {fuel : Nat} (hpathUsd : graph.quoteToken pathUsdAddress = 0)
    (h : dex.findTradePath graph fuel tokenIn tokenOut = some (.ok route)) :
    ∃ path : List Address, path.Nodup ∧ path.head? = some tokenIn ∧ path.getLast? = some tokenOut ∧
      path.IsChain (dex.Adjacent graph) ∧ route = zipWith (hopBetween graph) path path.tail := by
  unfold findTradePath at h
  split at h
  · cases h
  rename_i hne
  split at h
  · cases h
  split at h
  · have hnodup : [tokenIn, tokenOut].Nodup := by simpa using hne
    exact ⟨_, hnodup, rfl, rfl, validateAndBuildRoute_eq_ok hnodup (some.inj h)⟩
  obtain ⟨foundIn, hin, h⟩ := bind_eq_some_iff.mp h
  cases foundIn with
  | error => cases h
  | ok =>
    obtain ⟨_, hout, h⟩ := map_eq_some_iff.mp h
    obtain ⟨_, rfl, hjoin⟩ := bind_ok h
    unfold joinPaths at hjoin
    split at hjoin
    · cases hjoin
    rename_i _ hfind
    obtain ⟨hnodup, hhead, hlast⟩ := joined_simple hfind
      (leads_of_findPathToRoot hpathUsd hin) (leads_of_findPathToRoot hpathUsd hout)
    exact ⟨_, hnodup, hhead, hlast, validateAndBuildRoute_eq_ok hnodup hjoin⟩

end Dex

namespace TokenGraph

/-- **The quote tokens form a forest.** Every run of creations and of updates in two calls, in any order, ends. In
its final state the path along quote tokens from any token is finite and simple, and from a deployed token it
ends at pathUSD or at another reserved token without a quote token; the path of a USD token has only USD tokens;
the search for a cycle and the search for the root end from every address; and a route found between two tokens
follows a simple path of existing pairs from one to the other. -/
theorem run_keeps_forest (calls : List GraphCall) :
    ∃ graph, (∀ fuel, calls.length + 2 ≤ fuel → run fuel {} calls = some graph) ∧
      (∀ token, ∃ path, Leads graph.follow token path ∧ path.Nodup ∧
        (token ∈ graph.deployed → ∃ root, path.getLast? = some root ∧ root ∈ graph.deployed ∧ graph.quoteToken root = 0 ∧
          (root = pathUsdAddress ∨ lowerBytes root < reservedSize)) ∧
        (graph.currency token = usdCurrency → ∀ other ∈ path, graph.currency other = usdCurrency)) ∧
      (∀ token current, ∃ outcome, ∀ fuel, graph.deployed.length + 2 ≤ fuel →
        graph.cycleWalk token fuel current = some outcome) ∧
      (∀ token, ∃ outcome, ∀ fuel, graph.deployed.length + 2 ≤ fuel → graph.findPathToRoot fuel token = some outcome) ∧
      ∀ dex : Dex, ∀ fuel tokenIn tokenOut route, dex.findTradePath graph fuel tokenIn tokenOut = some (.ok route) →
        ∃ path : List Address, path.Nodup ∧ path.head? = some tokenIn ∧ path.getLast? = some tokenOut ∧
          path.IsChain (dex.Adjacent graph) ∧ route = zipWith (Dex.hopBetween graph) path path.tail := by
  obtain ⟨graph, hrun, hsound, -⟩ := Sound.empty.run calls (by simp : _ ≤ calls.length + 2)
  refine ⟨graph, fun fuel hfuel => run_mono hfuel hrun, fun token => ?_, fun token current => ?_, fun token => ?_, ?_⟩
  · obtain ⟨path, hpath⟩ := hsound.leads token
    refine ⟨path, hpath, hpath.nodup, fun htoken => ?_, hsound.usd hpath⟩
    obtain ⟨root, hroot, hnone⟩ := hpath.last_eq_none
    have hmem := hsound.mem_deployed hpath htoken root (mem_of_getLast? hroot)
    have hzero := follow_eq_none.mp hnone
    exact ⟨root, hroot, hmem, hzero, .inr (hsound.reserved root hmem hzero)⟩
  · obtain ⟨outcome, hwalk⟩ := hsound.exists_cycleWalk token current le_rfl
    exact ⟨outcome, fun fuel hfuel => cycleWalk_mono hfuel hwalk⟩
  · obtain ⟨outcome, hfound⟩ := hsound.exists_findPathToRoot token le_rfl
    exact ⟨outcome, fun fuel hfuel => findPathToRoot_mono hfuel hfound⟩
  · intro _ _ _ _ _ hroute
    exact Dex.findTradePath_eq_ok hsound.quote.pathUsd hroute

end TokenGraph
end LeafageEvm.Tempo

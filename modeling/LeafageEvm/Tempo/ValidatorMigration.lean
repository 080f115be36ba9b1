import LeafageEvm.Runs
import LeafageEvm.Tempo.ValidatorRegistry

/-! The migration to the second validator registry, down the array of the first one, and the indexes beside its
records. -/

namespace LeafageEvm.Tempo
open ValidatorConfigV2 List

namespace ValidatorConfigV2

variable {prim : ValidatorPrimitives} {env : ValidatorEnv} {registry next : ValidatorConfigV2} {v : ValidatorRecord}
  {idx n : Nat} {sender : Address} {migrated : List Nat}

/-- A migration that has started: of the `n` validators that the byte counts, the indices from the top have been
migrated or skipped. -/
structure Underway (registry : ValidatorConfigV2) (n : Nat) (migrated : List Nat) : Prop where
  owner : registry.config.owner ≠ 0
  isInit : registry.config.isInit = false
  count : registry.config.v1ValidatorCount = n
  processed : registry.validators.length + registry.config.migrationSkippedCount = migrated.length
  order : migrated <+: (List.range n).reverse
  bound : n ≤ 255

theorem swapAndPop_frame {p : Nat} : (registry.swapAndPop idx p).config = registry.config ∧
    (registry.swapAndPop idx p).validators.length = registry.validators.length := by
  rw [swapAndPop]
  split <;> simp

theorem updateIngressIpTracking_config {oldIngress newIngress : String}
    (h : registry.updateIngressIpTracking prim oldIngress newIngress = .ok next) : next.config = registry.config := by
  iterate 2 obtain ⟨_, h⟩ := rest_ok h
  split at h
  · obtain ⟨_, _, rfl⟩ := map_ok h
    rfl
  · cases h
    rfl

/-- What the calls outside the migration leave of it: before the end of the migration only the deactivation of a record
is possible. -/
theorem exec_frame {tx : ValidatorTx} (hmigrate : tx.call.migrated = []) (hinit : tx.call ≠ .initializeIfMigrated)
    (hcall : registry.exec prim tx = .ok next) :
    registry.config.isInit = true ∧ next.config.isInit = true ∨
      next.config = registry.config ∧ next.validators.length = registry.validators.length ∧ registry.validators ≠ [] := by
  obtain ⟨_, _, call⟩ := tx
  cases call with
  | migrateValidator => cases hmigrate
  | initializeIfMigrated => exact absurd rfl hinit
  | addValidator =>
    obtain ⟨⟨added, _⟩, hadded, rfl⟩ := map_ok hcall
    obtain ⟨hdone, hadded⟩ := check_ok hadded
    iterate 5 obtain ⟨_, hadded⟩ := rest_ok hadded
    obtain ⟨_, _, hadded⟩ := map_ok hadded
    obtain rfl : _ = added := congrArg Prod.fst hadded
    exact .inl ⟨hdone, hdone⟩
  | deactivateValidator =>
    obtain ⟨v, hv, hcall⟩ := bind_ok hcall
    obtain ⟨_, hcall⟩ := rest_ok hcall
    obtain ⟨-, _, rfl⟩ := map_ok hcall
    refine .inr ⟨swapAndPop_frame.1, swapAndPop_frame.2.trans (length_modify ..), ?_⟩
    intro hnil
    have hget := (getActiveValidator_eq_ok.mp hv).1
    simp [hnil] at hget
  | rotateValidator =>
    obtain ⟨v, _, hcall⟩ := bind_ok hcall
    obtain ⟨hdone, hcall⟩ := check_ok hcall
    iterate 5 obtain ⟨_, hcall⟩ := rest_ok hcall
    obtain ⟨_, hmove, rfl⟩ := map_ok hcall
    refine .inl ⟨hdone, ?_⟩
    rw [updateIngressIpTracking_config hmove]
    exact hdone
  | setFeeRecipient =>
    obtain ⟨v, _, hcall⟩ := bind_ok hcall
    obtain ⟨hdone, hcall⟩ := check_ok hcall
    obtain ⟨_, _, rfl⟩ := map_ok hcall
    exact .inl ⟨hdone, hdone⟩
  | setIpAddresses =>
    obtain ⟨v, _, hcall⟩ := bind_ok hcall
    obtain ⟨hdone, hcall⟩ := check_ok hcall
    iterate 2 obtain ⟨_, hcall⟩ := rest_ok hcall
    obtain ⟨_, hmove, rfl⟩ := map_ok hcall
    refine .inl ⟨hdone, ?_⟩
    rw [updateIngressIpTracking_config hmove]
    exact hdone
  | transferValidatorOwnership =>
    obtain ⟨v, _, hcall⟩ := bind_ok hcall
    obtain ⟨hdone, hcall⟩ := check_ok hcall
    obtain ⟨_, hcall⟩ := rest_ok hcall
    obtain ⟨_, _, rfl⟩ := map_ok hcall
    exact .inl ⟨hdone, hdone⟩
  | transferOwnership =>
    obtain ⟨_, hcall⟩ := rest_ok hcall
    obtain ⟨hdone, hcall⟩ := check_ok hcall
    obtain ⟨_, _, rfl⟩ := map_ok hcall
    exact .inl ⟨hdone, hdone⟩
  | setNetworkIdentityRotationEpoch =>
    obtain ⟨hdone, hcall⟩ := check_ok hcall
    obtain ⟨_, _, rfl⟩ := map_ok hcall
    exact .inl ⟨hdone, hdone⟩

theorem migrateRecord_counts {v1Val : V1Validator} {skipped : Nat} (hskipped : registry.config.migrationSkippedCount = skipped)
    (hlt : skipped < 255) (hcall : registry.migrateRecord prim env v1Val skipped = .ok next) :
    next.config = { registry.config with migrationSkippedCount := next.config.migrationSkippedCount } ∧
      next.validators.length + next.config.migrationSkippedCount = registry.validators.length + skipped + 1 := by
  have hskip : (registry.skip skipped).config =
      { registry.config with migrationSkippedCount := (registry.skip skipped).config.migrationSkippedCount } ∧
      (registry.skip skipped).validators.length + (registry.skip skipped).config.migrationSkippedCount =
        registry.validators.length + skipped + 1 := by
    refine ⟨rfl, ?_⟩
    show registry.validators.length + min (skipped + 1) 255 = _
    omega
  rw [migrateRecord] at hcall
  split at hcall
  · cases hcall
    exact hskip
  split at hcall
  · cases hcall
    exact hskip
  split at hcall
  · cases hcall
    exact hskip
  obtain ⟨_, hcall⟩ := rest_ok hcall
  obtain ⟨hash, _, hcall⟩ := map_ok hcall
  split at hcall
  · rw [← hcall]
    exact hskip
  have hlength : ∀ v, (registry.validators ++ [v]).length + registry.config.migrationSkippedCount =
      registry.validators.length + skipped + 1 := by
    intro v
    rw [length_append, length_singleton]
    omega
  rw [← hcall]
  split <;> exact ⟨rfl, hlength _⟩

/-- The next index from the top. -/
theorem descending_snoc (h : migrated <+: (range n).reverse) (hlt : migrated.length < n) :
    migrated ++ [n - migrated.length - 1] <+: (range n).reverse := by
  obtain ⟨rest, hrest⟩ := h
  have hget : (range n).reverse[migrated.length]? = some (n - migrated.length - 1) := by
    rw [getElem?_reverse (by simpa using hlt), length_range, getElem?_range (by omega)]
    congr 1
    omega
  rw [← hrest, getElem?_append_right le_rfl, Nat.sub_self] at hget
  cases rest with
  | nil => cases hget
  | cons a rest =>
    cases hget
    refine ⟨rest, ?_⟩
    rw [← hrest, append_assoc]
    rfl

theorem takeOver_start {taken : ValidatorConfigV2 × RegistryConfig} (hconfig : registry.config = {})
    (hempty : registry.validators = []) (howner : env.v1.owner ≠ 0) (h : registry.takeOver env = .ok taken) :
    taken.2 = taken.1.config ∧ taken.1.Underway (env.v1.validatorsArray.length % 256) [] := by
  rw [takeOver, hconfig] at h
  obtain ⟨_, _, rfl⟩ := map_ok h
  refine ⟨rfl, howner, rfl, rfl, ?_, nil_prefix, by omega⟩
  rw [hempty]
  rfl

namespace Underway

section
variable (h : registry.Underway n migrated)
include h
theorem takeOver {taken : ValidatorConfigV2 × RegistryConfig}
    (htaken : registry.takeOver env = .ok taken) : taken = (registry, registry.config) := by
  rw [ValidatorConfigV2.takeOver, if_neg h.owner] at htaken
  cases htaken
  rfl

theorem le : migrated.length ≤ n := by
  have := h.order.length_le
  simpa using this

theorem migrateRecord {v1Val : V1Validator}
    (hidx : ¬ (n ≤ registry.validators.length + registry.config.migrationSkippedCount ∨
      idx ≠ n - (registry.validators.length + registry.config.migrationSkippedCount) - 1))
    (hcall : registry.migrateRecord prim env v1Val registry.config.migrationSkippedCount = .ok next) :
    next.Underway n (migrated ++ [idx]) := by
  have hprocessed := h.processed
  have hbound := h.bound
  rw [hprocessed] at hidx
  obtain ⟨-, hidx⟩ := not_or.mp hidx
  obtain ⟨hconfig, hcount⟩ := migrateRecord_counts rfl (by omega) hcall
  constructor
  · rw [hconfig]
    exact h.owner
  · rw [hconfig]
    exact h.isInit
  · rw [hconfig]
    exact h.count
  · rw [hcount, length_append, length_singleton, hprocessed]
  · rw [not_not.mp hidx]
    exact descending_snoc h.order (by omega)
  · exact h.bound
end

end Underway
end ValidatorConfigV2

namespace RegistryHistory

variable {env : ValidatorEnv} {sender : Address} {next : ValidatorConfigV2}
variable {prim : ValidatorPrimitives} {history : RegistryHistory} {tx : ValidatorTx} {txs : List ValidatorTx}

/-- How far the migration is. -/
inductive Progress (history : RegistryHistory) : Prop where
  | notStarted (config : history.registry.config = {}) (validators : history.registry.validators = [])
      (v1AtStart : history.v1AtStart = none) (migrated : history.migrated = [])
  | underway (n : Nat) (v1AtStart : history.v1AtStart = some n) (started : history.registry.Underway (n % 256) history.migrated)
  | complete (n : Nat) (v1AtStart : history.v1AtStart = some n) (isInit : history.registry.config.isInit = true)
      (migrated : history.migrated = (List.range (n % 256)).reverse)

/-- The call that starts the migration, if there is one, finds an owner of the first registry. -/
def StartsOwned (prim : ValidatorPrimitives) (history : RegistryHistory) (txs : List ValidatorTx) : Prop :=
  ∀ before tx after, txs = before ++ tx :: after → (before.foldl (step prim) history).v1AtStart = none →
    ((before.foldl (step prim) history).step prim tx).v1AtStart ≠ none → tx.env.v1.owner ≠ 0

section
variable (h : history.Progress)
include h
theorem initializeIfMigrated_complete (hcall : history.registry.initializeIfMigrated env sender = .ok next) :
    ∃ n, history.v1AtStart = some n ∧ history.migrated = (range (n % 256)).reverse := by
  obtain ⟨_, htaken, hcall⟩ := bind_ok hcall
  obtain ⟨_, hdone, rfl⟩ := map_ok hcall
  obtain ⟨hinit, htaken⟩ := requireMigrationOwner_eq_ok htaken
  have hdone := require_eq_ok.mp hdone
  cases h with
  | notStarted hconfig hempty =>
    exfalso
    rw [takeOver, hconfig] at htaken
    obtain ⟨_, _, rfl⟩ := map_ok htaken
    apply hdone
    show env.v1.validatorsArray.length % 256 = 0 ∨
      history.registry.validators.length + 0 < env.v1.validatorsArray.length % 256
    rw [hempty, length_nil]
    omega
  | underway n hstart hunder =>
    rw [hunder.takeOver htaken] at hdone
    refine ⟨n, hstart, hunder.order.eq_of_length ?_⟩
    have hprocessed := hunder.processed
    have hcount := hunder.count
    have hle := hunder.le
    simp only at hdone
    rw [length_reverse, length_range]
    omega
  | complete n _ hdone' =>
    rw [hdone'] at hinit
    cases hinit

theorem Progress.frame (hmigrates : tx.call.migrated = [])
    (hcompletes : tx.call ≠ .initializeIfMigrated) (hcall : history.registry.exec prim tx = .ok next) :
    Progress { history with registry := next } := by
  have hframe := exec_frame hmigrates hcompletes hcall
  cases h with
  | notStarted hconfig hempty =>
    exfalso
    rcases hframe with ⟨hdone, -⟩ | ⟨-, -, hne⟩
    · rw [hconfig] at hdone
      cases hdone
    · exact hne hempty
  | underway n hsome hunder =>
    rcases hframe with ⟨hdone, -⟩ | ⟨hconfig, hlength, -⟩
    · rw [hunder.isInit] at hdone
      cases hdone
    refine .underway n hsome ⟨?_, ?_, ?_, ?_, hunder.order, hunder.bound⟩
    · rw [hconfig]
      exact hunder.owner
    · rw [hconfig]
      exact hunder.isInit
    · rw [hconfig]
      exact hunder.count
    · rw [hconfig, hlength]
      exact hunder.processed
  | complete n hsome hdone hmigrated =>
    refine .complete n hsome ?_ hmigrated
    rcases hframe with ⟨-, hdone'⟩ | ⟨hconfig, -⟩
    · exact hdone'
    · exact (congrArg _ hconfig).trans hdone

theorem Progress.migrate {idx : Nat} (hv1 : history.v1AtStart = none → env.v1.owner ≠ 0)
    (hcall : history.registry.migrateValidator prim env sender idx = .ok next) :
    Progress { registry := next
               v1AtStart := history.v1AtStart.or (some env.v1.validatorsArray.length)
               migrated := history.migrated ++ [idx] } := by
  obtain ⟨_, htaken, hcall⟩ := bind_ok hcall
  obtain ⟨hidx, hcall⟩ := check_ok hcall
  obtain ⟨_, _, hcall⟩ := bind_ok hcall
  obtain ⟨hinit, htaken⟩ := requireMigrationOwner_eq_ok htaken
  cases h with
  | notStarted hconfig hempty hnone hmigrated =>
    obtain ⟨hsame, hunder⟩ := takeOver_start hconfig hempty (hv1 hnone) htaken
    rw [hsame, hunder.count] at hidx
    rw [hsame] at hcall
    refine .underway env.v1.validatorsArray.length ?_ ?_
    · rw [hnone]
      rfl
    · rw [hmigrated]
      exact hunder.migrateRecord hidx hcall
  | underway n hsome hunder =>
    rw [hunder.takeOver htaken] at hidx hcall
    simp only [hunder.count] at hidx
    refine .underway n ?_ (hunder.migrateRecord hidx hcall)
    simp [hsome]
  | complete n _ hdone =>
    rw [hdone] at hinit
    cases hinit

theorem Progress.step (hv1 : history.v1AtStart = none → (history.step prim tx).v1AtStart ≠ none → tx.env.v1.owner ≠ 0) :
    (history.step prim tx).Progress := by
  rw [RegistryHistory.step] at hv1 ⊢
  split
  · exact h
  next _ hcall =>
  rw [hcall] at hv1
  obtain ⟨env, _, call⟩ := tx
  by_cases hcompletes : call = .initializeIfMigrated
  · subst hcompletes
    obtain ⟨n, hstart, hmigrated⟩ := initializeIfMigrated_complete h hcall
    obtain ⟨_, _, hcall⟩ := bind_ok hcall
    obtain ⟨_, _, rfl⟩ := map_ok hcall
    refine .complete n ?_ rfl ?_
    · simp [hstart]
    · show history.migrated ++ [] = _
      rw [append_nil, hmigrated]
  by_cases hmigrates : call.migrated = []
  · have hstart : history.v1AtStart.or (call.migrated.head?.map fun _ => env.v1.validatorsArray.length) =
        history.v1AtStart := by
      rw [hmigrates]
      exact Option.or_none
    have hlog : history.migrated ++ call.migrated = history.migrated := by
      rw [hmigrates, append_nil]
    simp only [hstart, hlog]
    exact h.frame hmigrates hcompletes hcall
  · cases call with
    | migrateValidator =>
      refine h.migrate (fun hnone => hv1 hnone ?_) hcall
      rw [hnone]
      exact Option.some_ne_none _
    | _ => exact absurd rfl hmigrates

/-! ### Runs -/

theorem run_progress (hv1 : StartsOwned prim history txs) : (txs.foldl (step prim) history).Progress := by
  induction txs generalizing history with
  | nil => exact h
  | cons tx rest ih =>
    refine ih (h.step (hv1 [] tx rest rfl)) fun before other after hsplit => ?_
    exact hv1 (tx :: before) other after (congrArg (tx :: ·) hsplit)
end

theorem tracked_step (h : history.registry.Tracked prim) (hheight : 1 ≤ tx.env.blockNumber) :
    history.registry.Advance prim (history.step prim tx).registry := by
  rw [RegistryHistory.step]
  split
  · exact .of_keys h rfl
  · next hcall => exact h.exec (by omega) hcall

/-- A run keeps the indexes in agreement with the records and keeps every public key. -/
theorem run_advance (h : history.registry.Tracked prim) (hheight : ∀ tx ∈ txs, 1 ≤ tx.env.blockNumber) :
    history.registry.Advance prim (txs.foldl (step prim) history).registry := by
  induction txs generalizing history with
  | nil => exact .of_keys h rfl
  | cons tx _ ih =>
    obtain ⟨hfirst, hrest⟩ := forall_mem_cons.mp hheight
    have hstep : history.registry.Advance prim (history.step prim tx).registry := tracked_step h hfirst
    have hrun := ih hstep.tracked hrest
    refine ⟨hrun.tracked, fun i k hi => ?_⟩
    obtain ⟨j, hj⟩ := hstep.keeps i k hi
    exact hrun.keeps j k hj

/-- **The validator registry**: after any calls the indexes agree with the records, every public key that a record had
before leads to the record that has it now. When the migration, started under an owner of the first registry, is
completed, each validator counted at its start was migrated or skipped once exactly if a byte counts them all. -/
theorem registry_consistent {earlier later : List ValidatorTx}
    (hheight : ∀ tx ∈ earlier ++ later, 1 ≤ tx.env.blockNumber) :
    let before := earlier.foldl (step prim) {}
    let history := (earlier ++ later).foldl (step prim) {}
    history.registry.Consistent prim ∧
    (∀ v ∈ before.registry.validators, ∃ i w, history.registry.validators[i]? = some w ∧ w.publicKey = v.publicKey ∧
      history.registry.pubkeyToIndex v.publicKey = i + 1) ∧
    (StartsOwned prim {} (earlier ++ later) → ∀ env sender next,
      history.registry.initializeIfMigrated env sender = .ok next →
      ∃ n, history.v1AtStart = some n ∧ ((∀ i < n, history.migrated.count i = 1) ↔ n ≤ 255)) := by
  intro before history
  obtain ⟨hearlier, hlater⟩ := forall_mem_append.mp hheight
  have hbefore : before.registry.Tracked prim := (run_advance tracked_start hearlier).tracked
  have hafter : before.registry.Advance prim history.registry := by
    have := run_advance hbefore hlater
    rwa [← foldl_append] at this
  have hconsistent := hafter.tracked.consistent
  refine ⟨hconsistent, fun v hv => ?_, fun hv1 env sender next hcall => ?_⟩
  · obtain ⟨i, hget⟩ := mem_iff_getElem?.mp hv
    obtain ⟨j, hj⟩ := hafter.keeps i v.publicKey (pick_of_get hget)
    obtain ⟨w, hw, hkey⟩ := pick_eq_some.mp hj
    have hkey := Option.some.inj hkey
    refine ⟨j, w, hw, hkey, ?_⟩
    rw [← hkey]
    exact hconsistent.keyMap j w hw
  · have hprogress : history.Progress := run_progress (.notStarted rfl rfl rfl rfl) hv1
    obtain ⟨n, hstart, hmigrated⟩ := initializeIfMigrated_complete hprogress hcall
    have hcount : ∀ i, history.migrated.count i = if i < n % 256 then 1 else 0 := by
      intro i
      rw [hmigrated, (nodup_reverse.mpr nodup_range).count]
      simp only [mem_reverse, mem_range]
    refine ⟨n, hstart, fun hall => ?_, fun hbyte i hi => ?_⟩
    · by_contra hlarge
      have hmissed := hall (n % 256) (by omega)
      rw [hcount, if_neg (Nat.lt_irrefl _)] at hmissed
      cases hmissed
    · rw [hcount, if_pos (by omega)]

/-- Primitives for the runs below: every endpoint is the same, and zero is no public key. -/
def plainPrimitives : ValidatorPrimitives where
  keccak256 _ := 7
  parseSocketAddr _ := some (.v4 [10, 0, 0, 1] 30303)
  parseIpAddr _ := some (.v4 [10, 0, 0, 1])
  ipToString _ := "10.0.0.1"
  decodesKey publicKey := publicKey ≠ 0
  decodesSignature _ := true
  verify _ _ _ _ := true

def plainV1 (owner : Address) (count : Nat) : ValidatorConfig where
  owner
  validatorsArray := (List.range count).map fun i => Fin.ofNat _ (i + 1)
  validators addr := { publicKey := addr.val, active := true, validatorAddress := addr }
  nextDkgCeremony := 0

def migrateTx (v1 : ValidatorConfig) (idx : Nat) : ValidatorTx :=
  { env := { chainId := 1, blockNumber := 5, v1 }, sender := v1.owner, call := .migrateValidator idx }

/-- Two validators with one endpoint: the second is migrated, the first is skipped, and the migration is complete. -/
theorem registry_consistent_two :
    let history := [migrateTx (plainV1 9 2) 1, migrateTx (plainV1 9 2) 0].foldl (step plainPrimitives) {}
    history.registry.Consistent plainPrimitives ∧ history.registry.validators.length = 1 ∧
      ∀ i < 2, history.migrated.count i = 1 := by
  have hmain := @registry_consistent plainPrimitives [migrateTx (plainV1 9 2) 1] [migrateTx (plainV1 9 2) 0] (by decide)
  have howned : StartsOwned plainPrimitives {} ([migrateTx (plainV1 9 2) 1] ++ [migrateTx (plainV1 9 2) 0]) := by
    intro before tx after hsplit _ _
    have hmem : tx ∈ [migrateTx (plainV1 9 2) 1] ++ [migrateTx (plainV1 9 2) 0] := by simp [hsplit]
    have hall : ∀ tx ∈ [migrateTx (plainV1 9 2) 1] ++ [migrateTx (plainV1 9 2) 0], tx.env.v1.owner ≠ 0 := by decide
    exact hall tx hmem
  refine ⟨hmain.1, rfl, ?_⟩
  obtain ⟨n, hn, hcount⟩ := hmain.2.2 howned { chainId := 1, blockNumber := 6, v1 := plainV1 9 2 } 9 _ rfl
  cases hn
  exact hcount.mpr (by decide)

/-- Three validators, the last of which has no valid key. -/
def keylessV1 : ValidatorConfig :=
  { plainV1 0 3 with validators := fun addr => { publicKey := addr.val % 3, active := false, validatorAddress := addr } }

/-- A byte counts 257 validators as one: the migration is complete after the first of them. And while the first registry
has no owner each call resets the stored count of skipped validators: after the last validator is skipped, each one
below it is migrated and then skipped as well. -/
theorem migration_miscounts :
    (let history := [migrateTx (plainV1 9 257) 0].foldl (step plainPrimitives) {}
     history.v1AtStart = some 257 ∧ history.migrated.count 256 = 0 ∧
      ∃ next, history.registry.initializeIfMigrated { chainId := 1, blockNumber := 6, v1 := plainV1 9 257 } 9 = .ok next) ∧
    let history := ([2, 1, 1, 0, 0].map (migrateTx keylessV1)).foldl (step plainPrimitives) {}
    history.v1AtStart = some 3 ∧ history.migrated.count 1 = 2 ∧
      ∃ next, history.registry.initializeIfMigrated { chainId := 1, blockNumber := 6, v1 := keylessV1 } 0 = .ok next :=
  ⟨⟨by decide +kernel, by decide +kernel, exists_ok_of_isOk (by decide +kernel)⟩,
    by decide +kernel, by decide +kernel, exists_ok_of_isOk (by decide +kernel)⟩

end RegistryHistory
end LeafageEvm.Tempo

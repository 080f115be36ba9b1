import LeafageEvm.StateReadBatch

/-! A batch of reads answers what the single methods answer, read by read. -/

namespace LeafageEvm.StateRead
open KeyPool List

/-! ### Reads of many keys -/

/-- Where a read of many keys succeeds, it gives what the reads of the keys give. -/
structure StateDB.Agrees (db : StateDB) : Prop where
  basic : ReadsAgree db.basicMany db.basic
  codeByHash : ReadsAgree db.codeByHashMany db.codeByHash
  storage : ReadsAgree db.storageMany db.storage

namespace EvmStorageWrapper

variable {wrapper : EvmStorageWrapper}

theorem basicRef_plain (h : wrapper.ovmAddress = none) :
    wrapper.basicRef = fun address => wrapper.db.basic (wrapper.keys.hashAddress address) := by
  funext address
  rw [basicRef, h]
  cases wrapper.db.basic (wrapper.keys.hashAddress address) with
  | error e => rfl
  | ok => rfl

section
variable (h : wrapper.db.Agrees)
include h
theorem readsAgree_basic : ReadsAgree wrapper.basicManyRef wrapper.basicRef := by
  intro _ _ hmany
  rw [basicManyRef] at hmany
  split at hmany
  · exact hmany
  · next hovm =>
      have hread := h.basic _ _ hmany
      rw [mapM_map] at hread
      rw [basicRef_plain (Option.not_isSome_iff_eq_none.mp hovm)]
      exact hread

theorem readsAgree_storage : ReadsAgree wrapper.storageManyRef wrapper.storageRef := by
  intro _ _ hmany
  have hread := h.storage _ _ hmany
  rw [mapM_map] at hread
  exact hread

theorem readsAgree_code : ReadsAgree wrapper.codeByHashManyRef wrapper.codeByHashRef := h.codeByHash
end

end EvmStorageWrapper

/-! ### The pools -/

namespace ReadPools

variable {pools : ReadPools} {read : BsrbRead}

def Covered (pools : ReadPools) : BsrbRead → Prop
  | .addressCode address => ∃ i : Nat, pools.accounts.slots address = some i ∧ pools.needsCode[i]? = some true
  | .storageAt address slot => pools.storage.Has (address, slot)
  | .balance address => pools.accounts.Has address
  | .nonce address => pools.accounts.Has address

structure Sound (pools : ReadPools) : Prop where
  accounts : pools.accounts.Indexed
  storage : pools.storage.Indexed
  marks : pools.needsCode.length = pools.accounts.keys.length

/-- One set of pools goes on from another. -/
structure Extends (pools next : ReadPools) : Prop where
  accounts : ∀ address i, pools.accounts.slots address = some i → next.accounts.slots address = some i
  storage : ∀ key, pools.storage.Has key → next.storage.Has key
  marks : ∀ i : Nat, pools.needsCode[i]? = some true → next.needsCode[i]? = some true

theorem Extends.covered {next : ReadPools} (h : Extends pools next) (hread : pools.Covered read) : next.Covered read := by
  have hhas : ∀ address, pools.accounts.Has address → next.accounts.Has address := by
    intro address haddress
    obtain ⟨i, hi⟩ := Option.isSome_iff_exists.mp haddress
    exact Option.isSome_iff_exists.mpr ⟨i, h.accounts address i hi⟩
  cases read with
  | addressCode address =>
    obtain ⟨i, hi, hmark⟩ := hread
    exact ⟨i, h.accounts address i hi, h.marks i hmark⟩
  | storageAt => exact h.storage _ hread
  | balance address | _ address => exact hhas address hread

theorem Sound.addAccount (h : pools.Sound) (address : Nat) :
    (pools.addAccount address).Sound ∧ Extends pools (pools.addAccount address) ∧
      (pools.addAccount address).accounts.Has address := by
  rw [ReadPools.addAccount]
  split
  · next hhas => exact ⟨h, ⟨fun _ _ hi => hi, fun _ hk => hk, fun _ hi => hi⟩, hhas⟩
  · next hnew =>
      refine ⟨⟨h.accounts.entry, h.storage, ?_⟩, ⟨fun _ _ hi => entry_slots hi, fun _ hk => hk, ?_⟩,
        entry_has⟩
      · rw [entry, if_neg hnew, length_append, length_append, h.marks]
        rfl
      · intro i hi
        rw [List.getElem?_append_left (List.getElem?_eq_some_iff.mp hi).1]
        exact hi

theorem Sound.add (h : pools.Sound) (read : BsrbRead) :
    (pools.add read).Sound ∧ Extends pools (pools.add read) ∧ (pools.add read).Covered read := by
  cases read with
  | addressCode address =>
    obtain ⟨hadded, hext, hhas⟩ := h.addAccount address
    obtain ⟨i, hi⟩ := Option.isSome_iff_exists.mp hhas
    have hlt : i < (pools.addAccount address).needsCode.length := by
      rw [hadded.marks]
      exact (List.getElem?_eq_some_iff.mp (hadded.accounts address i hi)).1
    refine ⟨{ hadded with marks := ?_ }, { hext with marks := ?_ }, i, hi, ?_⟩
    · show ((pools.addAccount address).needsCode.set _ true).length = _
      rw [length_set]
      exact hadded.marks
    · intro j hj
      show ((pools.addAccount address).needsCode.set _ true)[j]? = some true
      have hkept := hext.marks j hj
      rw [getElem?_set]
      split <;> simp_all
    · show ((pools.addAccount address).needsCode.set (((pools.addAccount address).accounts.slots address).getD 0) true)[i]? = _
      rw [hi, Option.getD_some, getElem?_set_self hlt]
  | storageAt =>
    exact ⟨{ h with storage := h.storage.entry }, ⟨fun _ _ hi => hi, fun _ hk => hk.entry, fun _ hi => hi⟩,
      entry_has⟩
  | balance address | _ address => exact h.addAccount address

theorem Extends.trans {next last : ReadPools} (h : Extends pools next) (h' : Extends next last) : Extends pools last where
  accounts := fun address i hi => h'.accounts address i (h.accounts address i hi)
  storage := fun key hkey => h'.storage key (h.storage key hkey)
  marks := fun i hi => h'.marks i (h.marks i hi)

theorem Sound.foldl (h : pools.Sound) (reads : List BsrbRead) :
    (reads.foldl ReadPools.add pools).Sound ∧ Extends pools (reads.foldl ReadPools.add pools) ∧
      ∀ read ∈ reads, (reads.foldl ReadPools.add pools).Covered read := by
  induction reads generalizing pools with
  | nil => exact ⟨h, ⟨fun _ _ hi => hi, fun _ hk => hk, fun _ hi => hi⟩, forall_mem_nil _⟩
  | cons read _ ih =>
    obtain ⟨hadd, hext, hread⟩ := h.add read
    obtain ⟨hall, hext', hrest⟩ := ih hadd
    exact ⟨hall, hext.trans hext', forall_mem_cons.mpr ⟨hext'.covered hread, hrest⟩⟩

theorem sound_empty : Sound {} := ⟨indexed_empty, indexed_empty, rfl⟩

end ReadPools

namespace Api

variable {item : Except RpcError (Option AccountInfo) × Bool} {api : Api} {state : EvmStorageWrapper} {ctx : BsrbContext}
  {read : BsrbRead} {reads : List BsrbRead}

/-! ### The codes -/

def codeOf (api : Api) (state : EvmStorageWrapper) : Option AccountInfo → Except RpcError (List Nat)
  | none => .ok []
  | some account => if api.hasCode account then (state.codeByHashRef account.codeHash).mapError databaseError else .ok []

variable {pool : KeyPool Nat} {items : List (Except RpcError (Option AccountInfo) × Bool)} {account : AccountInfo} {hash : Nat}

theorem indexed_addCodeHash (h : pool.Indexed) : (api.addCodeHash pool item).Indexed := by
  rw [addCodeHash.eq_def]
  split
  · split
    · exact h.entry
    · exact h
  · exact h

theorem has_addCodeHash (h : pool.Has hash) : (api.addCodeHash pool item).Has hash := by
  rw [addCodeHash.eq_def]
  split
  · split
    · exact h.entry
    · exact h
  · exact h

theorem indexed_codeHashes (h : pool.Indexed) : (items.foldl api.addCodeHash pool).Indexed := by
  induction items generalizing pool with
  | nil => exact h
  | cons _ _ ih => exact ih (indexed_addCodeHash h)

theorem has_codeHashes (hcode : api.hasCode account = true)
    (h : pool.Has account.codeHash ∨ (.ok (some account), true) ∈ items) :
    (items.foldl api.addCodeHash pool).Has account.codeHash := by
  induction items generalizing pool with
  | nil => exact h.resolve_right not_mem_nil
  | cons _ _ ih =>
    apply ih
    rcases h with hhas | hmem
    · exact .inl (has_addCodeHash hhas)
    rcases mem_cons.mp hmem with rfl | hmem
    · rw [addCodeHash, if_pos hcode]
      exact .inl entry_has
    · exact .inr hmem

def itemCode (api : Api) (state : EvmStorageWrapper) (item : Except RpcError (Option AccountInfo) × Bool) :
    Except RpcError (List Nat) :=
  if item.2 then item.1.bind (api.codeOf state) else .ok []

theorem codeResult_eq (hitem : item ∈ items) :
    api.codeResult (items.foldl api.addCodeHash {}) ((items.foldl api.addCodeHash {}).keys.map fun hash =>
      (state.codeByHashRef hash).mapError databaseError) item = .ok (api.itemCode state item) := by
  rw [codeResult.eq_def]
  split
  · rfl
  · rfl
  · rfl
  · next account =>
      show _ = Except.ok (api.codeOf state (some account))
      rw [codeOf]
      split
      · next hcode =>
          rw [(indexed_codeHashes indexed_empty).lookup_map (has_codeHashes hcode (.inr hitem))]
          rfl
      · rfl

/-! ### The reads of a batch -/

def stateOutcome (api : Api) (state : EvmStorageWrapper) : BsrbRead → BsrbOutcome
  | .addressCode address => outcome id (((state.basicRef address).mapError databaseError).bind (api.codeOf state))
  | .storageAt address slot => outcome storageValue ((state.storageRef (address, slot)).mapError (api.storageError (address, slot)))
  | .balance address =>
    outcome (fun account => quantityValue ((account.map (·.balance)).getD 0)) ((state.basicRef address).mapError databaseError)
  | .nonce address =>
    outcome (fun account => quantityValue ((account.map (·.nonce)).getD 0)) ((state.basicRef address).mapError databaseError)

theorem readBatch_eq (h : state.db.Agrees) : api.readBatch state reads = .ok (reads.map (api.stateOutcome state)) := by
  obtain ⟨hsound, -, hcovered⟩ := ReadPools.sound_empty.foldl reads
  rw [readBatch]
  generalize reads.foldl ReadPools.add {} = pools at hsound hcovered ⊢
  rw [readMany_eq (EvmStorageWrapper.readsAgree_storage h), readMany_eq (EvmStorageWrapper.readsAgree_basic h),
    readMany_eq (EvmStorageWrapper.readsAgree_code h)]
  generalize hitems : ((pools.accounts.keys.map fun address => (state.basicRef address).mapError databaseError).zip
    pools.needsCode) = items
  rw [mapM_ok fun _ hitem => codeResult_eq hitem]
  refine mapM_ok fun read hread => ?_
  have hread := hcovered read hread
  cases read with
  | addressCode address =>
    obtain ⟨i, hi, hmark⟩ := hread
    have hkey := hsound.accounts address i hi
    have hitem : items[i]? = some ((state.basicRef address).mapError databaseError, true) := by
      rw [← hitems, getElem?_zip_eq_some, getElem?_map, hkey]
      exact ⟨rfl, hmark⟩
    rw [readOutcome, KeyPool.lookup, hi, Option.bind_some, getElem?_map, hitem]
    rfl
  | storageAt =>
    rw [readOutcome, hsound.storage.lookup_map hread]
    rfl
  | balance | _ =>
    rw [readOutcome, hsound.accounts.lookup_map hread]
    rfl

/-! ### The answers -/

/-- What the node itself answers to a single method. -/
def localOutcome (api : Api) (ctx : BsrbContext) : BsrbRead → BsrbOutcome
  | .addressCode address => outcome id (api.getCodeInner address ctx)
  | .storageAt address slot => outcome storageValue (api.getStorageAtInner address slot ctx)
  | .balance address => outcome quantityValue (api.getAddressBalanceImpl address ctx)
  | .nonce address => outcome quantityValue (api.getAddressNonceInner address ctx)

def single (api : Api) (ctx : BsrbContext) : BsrbRead → BsrbOutcome
  | .addressCode address => outcome id (api.getAddressCode address ctx)
  | .storageAt address slot => outcome storageValue (api.getStorageAt address slot ctx)
  | .balance address => outcome quantityValue (api.getAddressBalance address ctx)
  | .nonce address => outcome quantityValue (api.getAddressNonce address ctx)

/-- What becomes of the outcome of an item, once the historical node had its chance. -/
def settle (api : Api) (ctx : BsrbContext) (read : BsrbRead) (item : BsrbOutcome) : BsrbOutcome :=
  match api.shouldTryHistorical ctx with
  | none => item
  | some client => retried client ctx read item

/-- What a batch makes of a read. -/
def batched (api : Api) (ctx : BsrbContext) (read : BsrbRead) : BsrbOutcome := api.settle ctx read (api.localOutcome ctx read)

/-- The historical node is asked for the read, and rejects it as overloaded. -/
def Rejects (api : Api) (ctx : BsrbContext) (read : BsrbRead) : Prop :=
  ∃ client err, api.shouldTryHistorical ctx = some client ∧ historicalItem client ctx read = .error err ∧ err.overloaded = true

theorem combineErrorMessage_ne (message : String) (err : ClientError) :
    combineErrorMessage message err ≠ historicalRpcOverloadedError.message := by
  intro heq
  have hhead := congrArg (·.toList.head?) heq
  simp [combineErrorMessage, historicalRpcOverloadedError] at hhead

/-- A single method answers as the batch does unless the node fails and the historical node is overloaded. -/
theorem outcome_answer_iff {A : Type} {encode : A → List Nat} {result : Except RpcError A}
    {ask : HistoricalClient → Except ClientError A}
    (hitem : ∀ client, historicalItem client ctx read = (ask client).map encode) :
    outcome encode (api.answer ctx result ask) = api.settle ctx read (outcome encode result) ↔
      ¬ ((outcome encode result).isError = true ∧ api.Rejects ctx read) := by
  rw [settle, Rejects]
  cases result with
  | ok a =>
    refine iff_of_true ?_ fun h => Bool.noConfusion h.1
    cases api.shouldTryHistorical ctx with
    | none => rfl
    | some => rfl
  | error err =>
    rw [answer]
    cases api.shouldTryHistorical ctx with
    | none => exact iff_of_true rfl fun ⟨_, _, _, hclient, _⟩ => nomatch hclient
    | some client =>
      show outcome encode ((ask client).mapError (mapHistoricalError err)) = retryItem client ctx read err.code err.message ↔ _
      rw [retryItem, hitem client]
      cases hask : ask client with
      | ok a =>
        refine iff_of_true rfl ?_
        rintro ⟨_, _, _, ⟨⟩, herr, _⟩
        rw [hitem, hask] at herr
        cases herr
      | error historicalErr =>
        show outcome encode (.error (mapHistoricalError err historicalErr)) = _ ↔ _
        rw [mapHistoricalError]
        cases hoverloaded : historicalErr.overloaded with
        | true =>
          refine iff_of_false (fun heq => ?_) fun h => h ⟨rfl, client, historicalErr, rfl, by rw [hitem, hask]; rfl, hoverloaded⟩
          exact combineErrorMessage_ne _ _ (BsrbOutcome.error.inj heq).2.symm
        | false =>
          refine iff_of_true rfl ?_
          rintro ⟨_, _, _, ⟨⟩, herr, hrejected⟩
          rw [hitem, hask] at herr
          cases herr
          rw [hoverloaded] at hrejected
          cases hrejected

theorem single_eq_batched_iff : api.single ctx read = api.batched ctx read ↔
    ¬ ((api.localOutcome ctx read).isError = true ∧ api.Rejects ctx read) := by
  have hcode : ∀ x : Except ClientError (List Nat), x = x.map id := by
    intro x
    cases x with
    | ok a => rfl
    | error e => rfl
  cases read with
  | addressCode => exact outcome_answer_iff fun client => hcode _
  | storageAt | balance | _ => exact outcome_answer_iff fun client => rfl

theorem outcome_map {A B : Type} {encode : B → List Nat} {f : A → B} {x : Except RpcError A} :
    outcome encode (x.map f) = outcome (fun a => encode (f a)) x := by
  cases x with
  | ok a => rfl
  | error e => rfl

def NeedsState (api : Api) (read : BsrbRead) : Prop := api.virtualBalance = none ∨ read.isBalance = false

/-- With a state, the node answers from it; without one, every method has the same error. -/
theorem localOutcome_eq (hneeds : api.NeedsState read) : api.localOutcome ctx read =
      match api.stateByCtx ctx with
      | .ok db => api.stateOutcome (api.wrap db) read
      | .error err => .error err.code err.message := by
  cases read with
  | addressCode =>
    rw [localOutcome, getCodeInner]
    cases api.stateByCtx ctx with
    | error => rfl
    | ok db => rfl
  | storageAt =>
    rw [localOutcome, getStorageAtInner]
    cases api.stateByCtx ctx with
    | error => rfl
    | ok db => rfl
  | balance =>
    have hnone := hneeds.resolve_right (Bool.noConfusion)
    rw [localOutcome, getAddressBalanceImpl, hnone]
    cases api.stateByCtx ctx with
    | error => rfl
    | ok db => exact outcome_map
  | nonce =>
    rw [localOutcome, getAddressNonceInner]
    cases api.stateByCtx ctx with
    | error => rfl
    | ok db => exact outcome_map

/-- The reads are answered one by one, or all of them with the error of the whole batch. -/
def Answers (f : BsrbRead → BsrbOutcome) (reads : List BsrbRead) (result : Except BatchFailure (List BsrbOutcome)) : Prop :=
  result = .ok (reads.map f) ∨
    ∃ err : RpcError, result = .error (.rpc err) ∧ ∀ read ∈ reads, f read = .error err.code err.message

theorem Answers.iff {f g : BsrbRead → BsrbOutcome} {result : Except BatchFailure (List BsrbOutcome)}
    (h : Answers g reads result) : Answers f reads result ↔ ∀ read ∈ reads, f read = g read := by
  rcases h with rfl | ⟨err, rfl, hall⟩
  · refine ⟨fun h => ?_, fun h => .inl (congrArg _ (map_congr_left fun read hread => (h read hread).symm))⟩
    rcases h with hok | ⟨_, herr, _⟩
    · exact fun read hread => (map_inj_left.mp (Except.ok.inj hok) read hread).symm
    · cases herr
  · refine ⟨fun h => ?_, fun h => .inr ⟨err, rfl, fun read hread => (h read hread).trans (hall read hread)⟩⟩
    rcases h with hok | ⟨_, herr, hall'⟩
    · cases hok
    · cases herr
      exact fun read hread => (hall' read hread).trans (hall read hread).symm

theorem resolveBatch_answers (hagrees : ∀ db, api.stateByCtx ctx = .ok db → db.Agrees)
    (hneeds : ∀ read ∈ reads, api.NeedsState read) :
    Answers (api.batched ctx) reads (api.resolveBatch reads ctx).1 ∧
      ∀ read ∈ (api.resolveBatch reads ctx).2, (api.localOutcome ctx read).isError = true := by
  cases hstate : api.stateByCtx ctx with
  | ok db =>
    have hinner : api.stateReadBatchInner reads ctx = .ok (reads.map (api.localOutcome ctx)) := by
      rw [stateReadBatchInner, hstate]
      show api.readBatch (api.wrap db) reads = _
      rw [readBatch_eq (hagrees db hstate)]
      refine congrArg _ (map_congr_left fun read hread => ?_)
      rw [localOutcome_eq (hneeds read hread), hstate]
    rw [resolveBatch, hinner]
    simp only [retryItemsViaHistorical, zip_map_self]
    cases hclient : api.shouldTryHistorical ctx with
    | none =>
      refine ⟨.inl (congrArg _ (map_congr_left fun read hread => ?_)), forall_mem_nil _⟩
      rw [batched, settle, hclient]
    | some =>
      refine ⟨.inl ?_, fun read hread => ?_⟩
      · show Except.ok ((reads.map _).map _) = _
        rw [map_map]
        refine congrArg _ (map_congr_left fun read hread => ?_)
        rw [batched, settle, hclient]
        rfl
      · obtain ⟨_, hitem, rfl⟩ := mem_map.mp hread
        obtain ⟨hitem, herror⟩ := mem_filter.mp hitem
        obtain ⟨_, _, rfl⟩ := mem_map.mp hitem
        exact herror
  | error err =>
    have hlocal : ∀ read ∈ reads, api.localOutcome ctx read = .error err.code err.message := by
      intro read hread
      rw [localOutcome_eq (hneeds read hread), hstate]
    have hinner : api.stateReadBatchInner reads ctx = .error (.rpc err) := by
      rw [stateReadBatchInner, hstate]
      rfl
    rw [resolveBatch, hinner]
    cases hclient : api.shouldTryHistorical ctx with
    | none =>
      refine ⟨.inr ⟨err, rfl, fun read hread => ?_⟩, forall_mem_nil _⟩
      rw [batched, settle, hclient]
      exact hlocal read hread
    | some =>
      refine ⟨.inl (congrArg _ (map_congr_left fun read hread => ?_)), fun read hread => ?_⟩
      · rw [batched, settle, hclient, hlocal read hread]
        rfl
      · rw [hlocal read hread]
        rfl

/-! ### Virtual balances -/

theorem withBalances_eq {balance : BsrbOutcome} {f : BsrbRead → BsrbOutcome}
    (hbalance : ∀ read ∈ reads, read.isBalance = true → f read = balance) :
    withBalances balance reads ((reads.filter fun read => ¬ read.isBalance).map f) = .ok (reads.map f) := by
  induction reads with
  | nil => rfl
  | cons read reads ih =>
    obtain ⟨hfirst, hrest⟩ := forall_mem_cons.mp hbalance
    have ih := ih hrest
    cases read with
    | balance address =>
      have hf : f (.balance address) = balance := hfirst rfl
      show (withBalances balance reads _).map _ = _
      rw [filter_cons_of_neg (by simp [BsrbRead.isBalance]), ih, map_cons, hf]
      rfl
    | addressCode | storageAt | _ =>
      show (withBalances balance reads _).map _ = _
      rw [ih]
      rfl

theorem batched_balance {balance : Nat} (hvirtual : api.virtualBalance = some balance) (hread : read.isBalance = true) :
    api.batched ctx read = .value (quantityValue balance) := by
  cases read with
  | balance =>
    rw [batched, settle, localOutcome, getAddressBalanceImpl, hvirtual]
    cases api.shouldTryHistorical ctx with
    | none => rfl
    | some => rfl
  | addressCode | storageAt | _ => cases hread

theorem stateReadBatch_answers (hagrees : ∀ db, api.stateByCtx ctx = .ok db → db.Agrees) :
    Answers (api.batched ctx) reads (api.stateReadBatch reads ctx).1 ∧
      ∀ read ∈ (api.stateReadBatch reads ctx).2, (api.localOutcome ctx read).isError = true := by
  rw [stateReadBatch]
  cases hvirtual : api.virtualBalance with
  | none => exact resolveBatch_answers hagrees fun _ _ => .inl hvirtual
  | some balance =>
    have hbalance : ∀ read ∈ reads, read.isBalance = true → api.batched ctx read = .value (quantityValue balance) :=
      fun read _ hread => batched_balance hvirtual hread
    have hmerged := withBalances_eq hbalance
    by_cases hempty : (reads.filter fun read => ¬ read.isBalance) = []
    · simp only [resolveWithVirtualBalance, if_pos hempty]
      refine ⟨.inl ?_, forall_mem_nil _⟩
      rw [hempty] at hmerged
      exact hmerged
    simp only [resolveWithVirtualBalance, if_neg hempty]
    have hmem : ∀ read ∈ reads.filter fun read => ¬ read.isBalance, read.isBalance = false := by
      intro read hread
      simpa using (mem_filter.mp hread).2
    obtain ⟨hanswers, hasked⟩ := resolveBatch_answers hagrees fun read hread => .inr (hmem read hread)
    refine ⟨.inl ?_, hasked⟩
    rcases hanswers with hok | ⟨err, herr, hall⟩
    · rw [hok]
      exact hmerged
    rw [herr]
    have hsame : replicate (reads.filter fun read => ¬ read.isBalance).length
        (BsrbOutcome.error err.code err.message) =
        (reads.filter fun read => ¬ read.isBalance).map (api.batched ctx) := by
      rw [map_congr_left hall, map_const']
    show withBalances _ reads (replicate ..) = _
    rw [hsame]
    exact hmerged

/-- **Batched reads are the single reads.** Where reads of many keys agree with reads of the keys, the batch answers each
read as its single method does if and only if no read that the node fails is sent to an overloaded historical node, and it
asks the historical node only for reads that the node itself fails. -/
theorem state_read_batch_eq_single (hagrees : ∀ db, api.stateByCtx ctx = .ok db → db.Agrees) :
    (Answers (api.single ctx) reads (api.stateReadBatch reads ctx).1 ↔
      ∀ read ∈ reads, ¬ ((api.localOutcome ctx read).isError = true ∧ api.Rejects ctx read)) ∧
      ∀ read ∈ (api.stateReadBatch reads ctx).2, (api.localOutcome ctx read).isError = true := by
  obtain ⟨hanswers, hasked⟩ := stateReadBatch_answers hagrees
  exact ⟨hanswers.iff.trans (forall₂_congr fun _ _ => single_eq_batched_iff), hasked⟩

/-- A database that reads keys one by one, and fails for all accounts but one. -/
def scalarDb : StateDB where
  basic key := if key = 1 then .ok (some { balance := 7, nonce := 2, codeHash := 5 }) else .error ⟨"io error", "IoError"⟩
  codeByHash _ := .ok [0xfe]
  storage _ := .ok 9
  basicMany _ := .error ⟨"io error", "IoError"⟩
  codeByHashMany _ := .error ⟨"io error", "IoError"⟩
  storageMany _ := .error ⟨"io error", "IoError"⟩

theorem scalarDb_agrees : scalarDb.Agrees :=
  ⟨fun _ _ h => (nomatch h), fun _ _ h => (nomatch h), fun _ _ h => (nomatch h)⟩

/-- A historical node that knows balances and answers the rest with one error. -/
def balanceClient (err : ClientError) : HistoricalClient where
  getAddressCode _ _ := .error err
  getStorageAt _ _ _ := .error err
  getAddressBalance _ _ := .ok 3
  getAddressNonce _ _ := .error err

def scalarApi (err : ClientError) : Api where
  stateByCtx _ := .ok scalarDb
  keys := { hashAddress := id, hashIndex := id, hashOvmBalance := id, keccakEmpty := 0 }
  historicalClient := some (balanceClient err)
  showAddress _ := "address"
  showSlot _ := "slot"

/-- Repeated and mixed reads, with every batched read failing: only the balance that the node does not find goes to the
historical node, which would be overloaded for the others. -/
theorem state_read_batch_eq_single_mixed :
    let api := scalarApi ⟨true, "status 429"⟩
    let reads := [.nonce 1, .addressCode 1, .balance 2, .nonce 1, .storageAt 1 0]
    Answers (api.single (.hash 0)) reads (api.stateReadBatch reads (.hash 0)).1 ∧
      (api.stateReadBatch reads (.hash 0)).2 = [.balance 2] := by
  refine ⟨(state_read_batch_eq_single ?_).1.mpr ?_, rfl⟩
  · rintro _ ⟨⟩
    exact scalarDb_agrees
  · rintro read hread ⟨hfails, _, _, ⟨⟩, hitem, -⟩
    simp only [mem_cons, not_mem_nil, or_false] at hread
    rcases hread with rfl | rfl | rfl | rfl | rfl
    · cases hfails
    · cases hfails
    · cases hitem
    · cases hfails
    · cases hfails

/-- Where the historical node is overloaded, the single method says so, and the batch answers with the error of the
node. -/
theorem overloaded_batch_ne_single :
    let api := scalarApi ⟨true, "status 429"⟩
    (api.stateReadBatch [.nonce 2] (.hash 0)).1 =
        .ok [.error dataBaseFailed (combineErrorMessage "io error" ⟨true, "status 429"⟩)] ∧
      api.single (.hash 0) (.nonce 2) = .error (-32042) "Historical RPC overloaded" ∧
      ∀ db, api.stateByCtx (.hash 0) = .ok db → db.Agrees := by
  refine ⟨rfl, rfl, ?_⟩
  rintro db ⟨⟩
  exact scalarDb_agrees

end Api
end LeafageEvm.StateRead

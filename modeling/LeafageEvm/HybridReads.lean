import LeafageEvm.BlockIndex
import LeafageEvm.KeyPool
import LeafageEvm.LayerReads

/-! What a state handle reads beyond one key. It lists the slots of an account from those of the disk
and those its layers write, each read as a single slot is, and it answers many keys with one request for
those that neither the layers nor the cache have. -/

namespace LeafageEvm
open DiffLayer HashMap List

namespace HybridStateDB

variable (handle : HybridStateDB) (cache : CacheEntries) (address : H256)

/-- The slots of the account that the layers write. -/
def writtenSlots : List H256 :=
  handle.layers.flatMap fun layer =>
    (layer.block.diff.storageDiffs.filter fun account => account.address = address).flatMap fun account =>
      account.diffs.map (·.index)

/-- The candidates that are not zero, read one after the other; a read may fill the cache. -/
def readSlots : List H256 → CacheEntries → List (H256 × U256) × CacheEntries
  | [], cache => ([], cache)
  | slot :: candidates, cache =>
    let read := handle.storage cache address slot
    let rest := readSlots candidates read.2
    (if read.1 = 0 then rest.1 else (slot, read.1) :: rest.1, rest.2)

/-- `storage_slots`, over a disk that lists its slots. -/
def storageSlots : List (H256 × U256) × CacheEntries :=
  handle.readSlots address (sortDedup (handle.statedb.storageSlots address ++ handle.writtenSlots address)) cache

/-! ### Reads in a row -/

/-- **A read** changes no other read. -/
theorem read_read (k k' : StateKey) : (handle.read (handle.read cache k).2 k').1 = (handle.read cache k').1 := by
  rcases handle.read_snd cache k with heq | ⟨hfree, height, heq⟩
  · rw [heq]
  rw [heq, read_fst, read_fst, lookup, lookup, Option.getD_or, Option.getD_or]
  congr 1
  by_cases hk : k' = k
  · subst hk
    rw [CacheEntries.insert_self, hfree]
    split <;> rfl
  · rw [CacheEntries.insert_of_ne _ _ _ hk]

theorem readSlots_fst (candidates : List H256) : (handle.readSlots address candidates cache).1 =
    (candidates.map fun slot => (slot, (handle.storage cache address slot).1)).filter fun entry => entry.2 ≠ 0 := by
  induction candidates generalizing cache with
  | nil => rfl
  | cons slot _ ih =>
    have hsame : ∀ other, (handle.storage (handle.storage cache address slot).2 address other).1 =
        (handle.storage cache address other).1 := fun other => handle.read_read cache ..
    simp only [readSlots]
    split <;> simp_all

/-! ### The slots of an account -/

theorem new_slot_ne_none {block : Block} {slot : H256} : (new block).get (.slot address slot) ≠ none ↔
    ∃ account ∈ block.diff.storageDiffs, account.address = address ∧ ∃ pair ∈ account.diffs, pair.index = slot := by
  show (new block).storage (address, slot) ≠ none ↔ _
  rw [new_storage, foldl_insert_eq_find?, Ne, Option.map_eq_none_iff, find?_eq_none]
  simp only [mem_reverse, BlockStorageDiff.slotWrites, mem_flatMap, mem_map, decide_eq_true_eq]
  push Not
  constructor
  · rintro ⟨_, ⟨account, haccount, pair, hpair, rfl⟩, hkey⟩
    cases hkey
    exact ⟨account, haccount, rfl, pair, hpair, rfl⟩
  · rintro ⟨account, haccount, rfl, pair, hpair, rfl⟩
    exact ⟨_, ⟨account, haccount, pair, hpair, rfl⟩, rfl⟩

theorem mem_writtenSlots {blocks : List Block} (hlayers : handle.layers = blocks.map .new) {slot : H256} :
    slot ∈ handle.writtenSlots address ↔ lookupLayers handle.layers (.slot address slot) ≠ none := by
  rw [writtenSlots, hlayers, lookupLayers, Ne, findSome?_eq_none_iff]
  rw [forall_mem_map]
  push Not
  refine Iff.trans ?_ (exists_congr fun _ => and_congr_right fun _ => (new_slot_ne_none address).symm)
  simp [and_assoc]

/-- **The listing** of an account holds a slot once, and the slots that are not zero with their values,
if and only if the cache has nothing of it under the layers that the disk has lost. -/
theorem storageSlots_exact_iff (blocks : List Block) (cached : Bool) (disk : DiskState) (height : Option U64) :
    let handle : HybridStateDB := ⟨blocks.map .new, cached, disk, height⟩
    (((handle.storageSlots cache address).1.map (·.1)).Nodup ∧
      ∀ slot value, (slot, value) ∈ (handle.storageSlots cache address).1 ↔
        (handle.storage cache address slot).1 = value ∧ value ≠ 0) ↔
    (cached = true → ∀ slot tag value, lookupLayers handle.layers (.slot address slot) = none →
      disk.get (.slot address slot) = (0 : U256) →
        cache (.slot address slot) = some (tag, value) → value = (0 : U256)) := by
  intro handle
  have hlayers : handle.layers = blocks.map .new := rfl
  have hmem : ∀ slot value, (slot, value) ∈ (handle.storageSlots cache address).1 ↔
      (slot ∈ handle.statedb.storageSlots address ∨ slot ∈ handle.writtenSlots address) ∧
        (handle.storage cache address slot).1 = value ∧ value ≠ 0 := by
    intro slot _
    rw [storageSlots, readSlots_fst, mem_filter, mem_map]
    simp only [mem_sortDedup, mem_append, Prod.mk.injEq, decide_eq_true_eq]
    constructor
    · rintro ⟨⟨_, hslot, rfl, rfl⟩, hne⟩
      exact ⟨hslot, rfl, hne⟩
    · rintro ⟨hslot, rfl, hne⟩
      exact ⟨⟨slot, hslot, rfl, rfl⟩, hne⟩
  constructor
  · rintro ⟨-, hexact⟩ hcached slot _ value hlayer hdisk hentry
    by_contra hne
    have hread : (handle.storage cache address slot).1 = value := by
      rw [storage, read_fst, lookup, hlayer, if_pos hcached, hentry]
      rfl
    rcases ((hmem slot value).mp ((hexact slot value).mpr ⟨hread, hne⟩)).1 with hslot | hslot
    · exact DiskState.mem_storageSlots.mp hslot hdisk
    · exact (handle.mem_writtenSlots address hlayers).mp hslot hlayer
  · intro hcoherent
    constructor
    · rw [storageSlots, readSlots_fst]
      refine (filter_sublist.map _).nodup ?_
      rw [map_map]
      change (map id _).Nodup
      rw [map_id]
      exact (sorted_sortDedup _).imp ne_of_lt
    · intro slot _
      rw [hmem]
      refine and_iff_right_of_imp ?_
      rintro ⟨rfl, hne⟩
      rw [handle.mem_writtenSlots address hlayers, DiskState.mem_storageSlots]
      by_contra hnot
      rw [not_or, not_not, not_not] at hnot
      apply hne
      rw [storage, read_fst, lookup, hnot.2]
      split
      · next hcached =>
        cases hentry : cache (.slot address slot) with
        | none => exact hnot.1
        | some entry => exact hcoherent hcached slot entry.1 entry.2 hnot.2 hnot.1 hentry
      · exact hnot.1

/-- The slot of an account that a block deletes, read before the block is committed, stays in the cache
and reads as it was; the listing asks the disk and has nothing. -/
theorem deleted_slot_unlisted :
    let disk := genesisDisk.writeStorage 7 3 300
    let block : Block := ⟨⟨6, 100, 1⟩, { deletedAccounts := [7] }⟩
    let cache := (storage ⟨[], true, disk, some 0⟩ .empty 7 3).2.writeThrough (.new block)
    let handle : HybridStateDB := ⟨[], true, disk.updateBlock true block, some 1⟩
    (handle.storage cache 7 3).1 = 300 ∧ (handle.storageSlots cache 7).1 = [] := by
  decide

end HybridStateDB

/-! ### Many keys at once -/

section ReadMany
variable {K V S : Type} [DecidableEq K] {lookup : K → Option V} {keys : List K}

/-- The walk over the keys: the answers by position, the keys without one, and the positions of each. -/
structure LayeredWalk (K V : Type) where
  out : List (Option V)
  unresolved : List K
  unresolvedSlots : HashMap K (List Nat)

def LayeredWalk.visit (lookup : K → Option V) (walk : LayeredWalk K V) (key : K) : LayeredWalk K V :=
  match lookup key with
  | some value => { walk with out := walk.out ++ [some value] }
  | none =>
    { out := walk.out ++ [none]
      unresolved := if (walk.unresolvedSlots key).isSome then walk.unresolved else walk.unresolved ++ [key]
      unresolvedSlots := walk.unresolvedSlots.insert key ((walk.unresolvedSlots key).getD [] ++ [walk.out.length]) }

/-- `read_many_layered`: the answers, to be unwrapped, the keys asked of the database, and the cache. -/
def readManyLayered (lookup : K → Option V) (fill : S → K → V → S) (fetchMany : List K → List V) (keys : List K)
    (cache : S) : List (Option V) × List K × S :=
  let walk := keys.foldl (LayeredWalk.visit lookup) ⟨[], [], .empty⟩
  let fetched := walk.unresolved.zip (fetchMany walk.unresolved)
  (fetched.foldl (fun out entry => ((walk.unresolvedSlots entry.1).getD []).foldl
      (fun out pos => out.set pos (some entry.2)) out) walk.out,
    walk.unresolved, fetched.foldl (fun cache entry => fill cache entry.1 entry.2) cache)

structure Walked (lookup : K → Option V) (keys : List K) (walk : LayeredWalk K V) : Prop where
  out : walk.out = keys.map lookup
  nodup : walk.unresolved.Nodup
  has : ∀ key, (walk.unresolvedSlots key).isSome ↔ key ∈ walk.unresolved
  slots : ∀ key pos, pos ∈ (walk.unresolvedSlots key).getD [] ↔ keys[pos]? = some key ∧ lookup key = none

theorem Walked.visit {walk : LayeredWalk K V} (h : Walked lookup keys walk) (key : K) :
    Walked lookup (keys ++ [key]) (walk.visit lookup key) := by
  have hlength : walk.out.length = keys.length := by rw [h.out, length_map]
  have hpos : ∀ other pos, (keys ++ [key])[pos]? = some other ↔
      keys[pos]? = some other ∨ pos = keys.length ∧ other = key := by
    intro other pos
    grind
  unfold LayeredWalk.visit
  split
  · next _ hvalue =>
    refine ⟨by simp [h.out, hvalue], h.nodup, h.has, fun other pos => ?_⟩
    rw [h.slots, hpos]
    grind
  · next hnone =>
    refine ⟨by simp [h.out, hnone], ?_, fun other => ?_, fun other pos => ?_⟩
    · grind [h.nodup, h.has]
    · dsimp only
      rw [HashMap.insert, Function.update_apply]
      grind [h.has]
    · dsimp only
      rw [hpos, hlength, HashMap.insert, Function.update_apply]
      grind [h.slots]

theorem walked_foldl (lookup : K → Option V) (keys : List K) :
    Walked lookup keys (keys.foldl (.visit lookup) ⟨[], [], .empty⟩) := by
  induction keys using reverseRecOn with
  | nil => exact ⟨rfl, .nil, by simp [empty], by simp [empty]⟩
  | append_singleton _ key ih =>
    rw [foldl_concat]
    exact ih.visit key

omit [DecidableEq K] in
/-- Writes at a position that all write the same. -/
theorem getElem?_foldl_set {A : Type} {pos : A → Nat} {value : A → V} {v : Option V} {writes : List A} {i : Nat}
    (hsame : ∀ write ∈ writes, pos write = i → some (value write) = v) (out : List (Option V)) :
    (writes.foldl (fun out write => out.set (pos write) (some (value write))) out)[i]? =
      out[i]?.map fun old => if i ∈ writes.map pos then v else old := by
  induction writes generalizing out with
  | nil => simp
  | cons write _ ih =>
    have hwrite := hsame write (.head _)
    rw [foldl_cons, ih fun other hother => hsame other (.tail _ hother)]
    cases hold : out[i]? <;> grind

/-- The keys are answered as the reads of one key answer, and no key is asked for twice. -/
structure AnswersEach (single : K → V) (keys : List K) (result : List (Option V) × List K × S) : Prop where
  values : result.1 = keys.map fun key => some (single key)
  once : result.2.1.Nodup

/-- **A read of many keys.** -/
theorem readManyLayered_answers (lookup : K → Option V) (fill : S → K → V → S) {fetchMany : List K → List V} {single : K → V}
    (hfetch : ∀ keys, fetchMany keys = keys.map single) (keys : List K) (cache : S) :
    AnswersEach (fun key => (lookup key).getD (single key)) keys (readManyLayered lookup fill fetchMany keys cache) := by
  have h := walked_foldl lookup keys
  unfold readManyLayered
  generalize keys.foldl (LayeredWalk.visit lookup) _ = walk at h
  refine ⟨ext_getElem? fun i => ?_, h.nodup⟩
  -- Every fetched value goes to the positions of its key.
  let writes := walk.unresolved.flatMap fun key => ((walk.unresolvedSlots key).getD []).map fun pos => (key, pos)
  have hwrites : ∀ key pos, (key, pos) ∈ writes ↔ keys[pos]? = some key ∧ lookup key = none := by
    intro key _
    rw [← h.slots]
    have hhas := h.has key
    cases hslots : walk.unresolvedSlots key <;> grind
  have hflat : walk.unresolved.foldl (fun out key => ((walk.unresolvedSlots key).getD []).foldl
      (fun out pos => out.set pos (some (single key))) out) walk.out =
        writes.foldl (fun out write => out.set write.2 (some (single write.1))) walk.out := by
    simp only [writes, foldl_flatMap, foldl_map]
  simp only [hfetch, zip_map_self, foldl_map]
  rw [hflat, getElem?_foldl_set (v := keys[i]?.map single), h.out, getElem?_map, getElem?_map]
  · cases hkey : keys[i]? with
    | none => rfl
    | some key =>
      have hasked : i ∈ writes.map (·.2) ↔ lookup key = none := by
        rw [mem_map]
        constructor
        · rintro ⟨⟨_, _⟩, hwrite, rfl⟩
          obtain ⟨hother, hnone⟩ := (hwrites ..).mp hwrite
          cases hkey.symm.trans hother
          exact hnone
        · exact fun hnone => ⟨(key, i), (hwrites key i).mpr ⟨hkey, hnone⟩, rfl⟩
      simp only [hasked, Option.map_some]
      cases lookup key <;> rfl
  · rintro ⟨key, pos⟩ hwrite rfl
    rw [((hwrites key pos).mp hwrite).1]
    rfl

end ReadMany

/-! ### The batched reads of a handle -/

namespace DiskState

variable (disk : DiskState) (codes : H256 → Option Bytes) (codeHashes : List H256)

/-- `StateDBWrapper` over the analyzed codes it keeps: a code is taken from them first. -/
def analyzed : DiskState := { disk with codes := fun codeHash => (codes codeHash).or (disk.codes codeHash) }

/-- The places without an analyzed code, filled with what was read for them. -/
def fillCodes : List (Option Bytes) → List (Option Bytes) → List Bytes
  | [], _ => []
  | some code :: out, read => code :: fillCodes out read
  | none :: out, read => read.head?.join.getD [] :: fillCodes out read.tail

/-- `StateDBWrapper::code_by_hash_many`. -/
def codeByHashMany : List Bytes :=
  let out := codeHashes.map codes
  let missing := ((codeHashes.zip out).filter fun entry => entry.2.isNone).map (·.1)
  fillCodes out (missing.map disk.codes)

theorem codeByHashMany_eq :
    disk.codeByHashMany codes codeHashes = codeHashes.map fun codeHash => (disk.analyzed codes).get (.code codeHash) := by
  induction codeHashes with
  | nil => rfl
  | cons codeHash _ ih =>
    cases hcode : codes codeHash with
    | none | _ => simp_all [codeByHashMany, fillCodes, analyzed, get]

end DiskState

namespace HybridStateDB

variable (handle : HybridStateDB) (cache : CacheEntries)

def fill (k : StateKey) (value : k.Value) : CacheEntries :=
  if handle.cached then handle.cacheViewHeight.elim cache fun height => cache.refill k height value else cache

/-- The keys that are asked of the database are those that its read of many keys is given. -/
def basicMany (fetchMany : List H256 → List (Option AccountInfo)) (addresses : List H256) :
    List (Option (Option AccountInfo)) × List H256 × CacheEntries :=
  readManyLayered (fun address => handle.lookup cache (.account address))
    (fun cache address => handle.fill cache (.account address)) fetchMany addresses cache

def storageMany (fetchMany : List (H256 × H256) → List U256) (keys : List (H256 × H256)) :
    List (Option U256) × List (H256 × H256) × CacheEntries :=
  readManyLayered (fun key => handle.lookup cache (.slot key.1 key.2))
    (fun cache key => handle.fill cache (.slot key.1 key.2)) fetchMany keys cache

def codeByHashMany (codes : H256 → Option Bytes) (codeHashes : List H256) : List (Option Bytes) × List H256 × CacheEntries :=
  readManyLayered (fun codeHash => handle.lookup cache (.code codeHash))
    (fun cache codeHash => handle.fill cache (.code codeHash)) (handle.statedb.codeByHashMany codes) codeHashes cache

/-- **Batched reads** answer at every position what the read of the key there answers, and ask the database
for no key twice, where the database's own reads of many accounts and slots answer its single reads. -/
theorem manyReads_eq_single (codes : H256 → Option Bytes) {fetchAccounts : List H256 → List (Option AccountInfo)}
    {fetchSlots : List (H256 × H256) → List U256}
    (haccounts : ∀ addresses, fetchAccounts addresses = addresses.map fun address => handle.statedb.get (.account address))
    (hslots : ∀ keys, fetchSlots keys = keys.map fun key => handle.statedb.get (.slot key.1 key.2)) :
    (∀ addresses, AnswersEach (fun address => (handle.basic cache address).1) addresses
      (handle.basicMany cache fetchAccounts addresses)) ∧
    (∀ keys, AnswersEach (fun key => (handle.storage cache key.1 key.2).1) keys (handle.storageMany cache fetchSlots keys)) ∧
    ∀ codeHashes, AnswersEach
      (fun codeHash => (read { handle with statedb := handle.statedb.analyzed codes } cache (.code codeHash)).1)
      codeHashes (handle.codeByHashMany cache codes codeHashes) := by
  simp only [basic, storage, read_fst]
  exact ⟨fun addresses => readManyLayered_answers _ _ haccounts addresses cache,
    fun keys => readManyLayered_answers _ _ hslots keys cache,
    fun codeHashes => readManyLayered_answers _ _ (handle.statedb.codeByHashMany_eq codes) codeHashes cache⟩

/-- A slot of a layer between two reads of one that only the disk can answer. -/
theorem manyReads_eq_single_repeated :
    let handle : HybridStateDB := ⟨[.new (slotBlock 101 100 1 11)], true, genesisDisk, some 0⟩
    let fetchSlots (keys : List (H256 × H256)) := keys.map fun key => genesisDisk.get (.slot key.1 key.2)
    let result := handle.storageMany .empty fetchSlots [(1, 3), (1, 2), (1, 3)]
    AnswersEach (fun key => (handle.storage .empty key.1 key.2).1) [(1, 3), (1, 2), (1, 3)] result ∧
      result.1 = [some 0, some 11, some 0] ∧ result.2.1 = [(1, 3)] :=
  ⟨(manyReads_eq_single _ _ (fun _ => none) (fun _ => rfl) fun _ => rfl).2.1 _, by decide, by decide⟩

end HybridStateDB
end LeafageEvm

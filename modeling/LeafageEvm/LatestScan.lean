import LeafageEvm.ArchiveRefine
import LeafageEvm.Shards
import LeafageEvm.SstSink
import LeafageEvm.TipScan

/-! The latest-state scans of an archive: the newest version of every account and slot. Over inverted
heights the newest version of a key is its first row, and RocksDB leaves a long history by seeking past
it; over plain heights it is the last one, sentinels apart. -/

namespace LeafageEvm
open Archive Fin VersionTable List
variable {rows : OrderedMap Bytes Bytes} {inverted : Bool} {value : Bytes} {codec : Codec}

/-- Drop the bytes at the end that cannot be incremented, and increment the last one left. The bytes are in
reverse. -/
def incrementLast : Bytes → Option Bytes
  | [] => none
  | byte :: rest => if byte ≠ 255 then some ((byte + 1) :: rest) else incrementLast rest

/-- `key_after_prefix`: the smallest key after every key that begins so. -/
def keyAfterPrefix (user : Bytes) : Option Bytes := (incrementLast user.reverse).map List.reverse

def maxTailWalk : Nat := 8

def Backend.isRocksdb : Backend → Bool
  | .rocksdb _ => true
  | .mdbx _ => false

/-- The rows that the scans keep: `tip_of_each_prefix` and the walking scans. With `debug` RocksDB walks over
every version, to log it. MDBX knows of no sentinels. -/
def newestRows (backend : Backend) (debug : Bool) (len : Nat) (rows : OrderedMap Bytes Bytes) : List (Bytes × Bytes) :=
  if backend.inverted then
    if backend.isRocksdb ∧ debug = false then
      tipOfEach (take len) keyAfterPrefix maxTailWalk rows.entries rows.entries.length rows.entries
    else firstOfEach (take len) none rows.entries
  else lastOfEach (take len) (fun key => backend.isRocksdb ∧ rowBlock key = sentinelHeight) rows.entries

/-- The height whose reads the scans give. -/
def tipHeight (backend : Backend) : U64 :=
  if backend = .rocksdb .v1 then sentinelHeight - 1 else sentinelHeight

inductive MigrateError where
  | sst (error : SstError)
  | decode
  | timestamped
  | noHead
  deriving DecidableEq

/-- `account_iter`: the accounts that are not deleted. A timestamped table cannot be scanned without a
timestamp. -/
def accountIter (codec : Codec) (backend : Backend) (debug : Bool) (table : VersionTable 32) :
    Except MigrateError (List (H256 × NewAccount)) :=
  match table with
  | .stamped _ => .error .timestamped
  | .plain rows =>
    ((newestRows backend debug 32 rows).filter fun row => row.2 ≠ []).mapM fun row =>
      let address := hashOfBytes (row.1.take 32)
      match Archive.decodeAccount codec address row.2 with
      | some account => .ok (address, account)
      | none => .error .decode

def slotOfRow (row : Bytes × Bytes) : (H256 × H256) × U256 :=
  ((hashOfBytes (row.1.take 32), hashOfBytes ((row.1.drop 32).take 32)), decodeStorage row.2)

/-- `storage_iter`: the slots that are not zero. -/
def storageIter (backend : Backend) (debug : Bool) (table : VersionTable 64) : Except MigrateError (List ((H256 × H256) × U256)) :=
  match table with
  | .stamped _ => .error .timestamped
  | .plain rows =>
    .ok (((newestRows backend debug 64 rows).map slotOfRow).filter fun row => row.2 ≠ 0)

/-! ### The key after a group -/

theorem cons_le_cons {first first' : Byte} {rest rest' : Bytes} :
    first :: rest ≤ first' :: rest' ↔ first < first' ∨ first = first' ∧ rest ≤ rest' := by
  have happend := @append_le_append_iff _ [first] [first'] rfl _ rest rest'
  simpa [cons_lt_cons_iff] using happend

theorem incrementLast_append (bytes : Bytes) (byte : Byte) :
    incrementLast (bytes ++ [byte]) = ((incrementLast bytes).map (· ++ [byte])).or (incrementLast [byte]) := by
  induction bytes with
  | nil => rfl
  | cons _ _ ih =>
    rw [cons_append, incrementLast, incrementLast]
    split
    · rfl
    · exact ih

theorem keyAfterPrefix_cons (byte : Byte) (rest : Bytes) : keyAfterPrefix (byte :: rest) =
      ((keyAfterPrefix rest).map (byte :: ·)).or (if byte ≠ 255 then some [byte + 1] else none) := by
  rw [keyAfterPrefix, reverse_cons, incrementLast_append, keyAfterPrefix]
  cases incrementLast rest.reverse with
  | none =>
    rw [incrementLast]
    split <;> rfl
  | some => simp

theorem take_le_of_keyAfterPrefix_none {user : Bytes} (h : keyAfterPrefix user = none) (key : Bytes) :
    key.take user.length ≤ user := by
  induction user generalizing key with
  | nil => exact le_refl _
  | cons byte _ ih =>
    rw [keyAfterPrefix_cons, Option.or_eq_none_iff, Option.map_eq_none_iff] at h
    obtain ⟨hrest, hbyte⟩ := h
    have hmax : byte = 255 := by
      by_contra hne
      rw [if_pos hne] at hbyte
      cases hbyte
    cases key with
    | nil => exact (nil_lt_cons ..).le
    | cons first key =>
      rw [length_cons, take_succ_cons, cons_le_cons]
      rcases (show first ≤ byte from hmax ▸ le_last first).lt_or_eq with hlt | heq
      · exact .inl hlt
      · exact .inr ⟨heq, ih hrest key⟩

theorem lt_keyAfterPrefix_iff {user key after : Bytes} (h : keyAfterPrefix user = some after) (hlength : user.length ≤ key.length) :
    key < after ↔ key.take user.length ≤ user := by
  induction user generalizing key after with
  | nil => cases h
  | cons byte rest ih =>
    cases key with
    | nil => cases hlength
    | cons first key =>
      rw [keyAfterPrefix_cons] at h
      rw [length_cons, take_succ_cons, cons_le_cons]
      cases hrest : keyAfterPrefix rest with
      | some bumped =>
        rw [hrest] at h
        obtain rfl : byte :: bumped = after := Option.some.inj h
        rw [cons_lt_cons_iff, ih hrest (Nat.le_of_succ_le_succ hlength)]
      | none =>
        rw [hrest] at h
        have hne : byte ≠ 255 := by
          rintro rfl
          cases h
        rw [if_pos hne] at h
        obtain rfl : [byte + 1] = after := Option.some.inj h
        have hstep : first < byte + 1 ↔ first ≤ byte := by
          have hlt : byte.val < 255 := lt_of_le_of_ne (Fin.le_last byte) fun heq => hne (Fin.ext heq)
          have hval : (byte + 1).val = byte.val + 1 := val_add_one_of_lt hlt
          rw [lt_def, le_def]
          omega
        rw [cons_lt_singleton, hstep, and_iff_left (take_le_of_keyAfterPrefix_none hrest key), le_iff_lt_or_eq]

/-! ### The rows -/

variable {len : Nat} {backend : Backend} {owner : Owner len} {n : U64}

theorem grouped_entries (rows : OrderedMap Bytes Bytes) : Grouped (take len) rows.entries :=
  rows.sorted.imp fun hlt => ⟨hlt, take_le_take len hlt.le⟩

/-- Seeking past the histories finds what walking over them finds. -/
theorem newestRows_inverted (hwf : VersionRows true len rows.entries) (hinverted : backend.inverted = true) (debug : Bool) :
    newestRows backend debug len rows = firstOfEach (take len) none rows.entries := by
  rw [newestRows, if_pos hinverted]
  split
  · have hlength : ∀ row ∈ rows.entries, (row.1.take len).length = len ∧ len ≤ row.1.length := by
      intro row hrow
      obtain ⟨owner, n, hkey⟩ := hwf row hrow
      rw [hkey, take_versionKey, length_versionKey]
      exact ⟨owner.2, Nat.le_add_right ..⟩
    refine tipOfEach_eq maxTailWalk (grouped_entries rows) ?_ ?_ (suffix_refl _) le_rfl
    · intro a ha b hb _ hkey
      have hiff := lt_keyAfterPrefix_iff hkey ((hlength a ha).1.trans_le (hlength b hb).2)
      rwa [(hlength a ha).1] at hiff
    · intro a ha hnone b hb
      have hle := take_le_of_keyAfterPrefix_none hnone b.1
      rwa [(hlength a ha).1] at hle
  · rfl

theorem forall_owned_iff {rows : List (Bytes × Bytes)} (hwf : VersionRows inverted len rows) {p : Bytes → Prop} :
    (∀ row ∈ rows, row.1.take len = owner.1 → p row.1) ↔ ∀ m w, (versionKey inverted owner m, w) ∈ rows → p (versionKey inverted owner m) := by
  constructor
  · intro h m w hrow
    exact h _ hrow (take_versionKey ..)
  · rintro h ⟨key, w⟩ hrow htake
    obtain ⟨owner', m, rfl⟩ : ∃ (owner' : Owner _) (m : _), _ = versionKey _ owner' m := hwf _ hrow
    rw [take_versionKey] at htake
    obtain rfl : owner' = owner := Subtype.ext htake
    exact h m w hrow

theorem tipHeight_of_inverted (hinverted : backend.inverted = true) : tipHeight backend = sentinelHeight := by
  refine if_neg fun heq => ?_
  rw [heq] at hinverted
  cases hinverted

/-- Over plain heights, the scans leave out what is above their height. -/
theorem skipped_iff (hinverted : backend.inverted = false) (n : U64) :
    (backend.isRocksdb = true ∧ n = sentinelHeight) ↔ ¬ n ≤ tipHeight backend := by
  have hmax : n ≤ sentinelHeight := le_last n
  cases backend with
  | rocksdb schema =>
    cases schema with
    | v1 =>
      have hbelow : n ≤ sentinelHeight - 1 ↔ n ≠ sentinelHeight := by
        rw [Fin.le_def, Ne, Fin.ext_iff]
        have hval : (sentinelHeight - 1).val = 2 ^ 64 - 2 := rfl
        have hlast : sentinelHeight.val = 2 ^ 64 - 1 := rfl
        omega
      rw [tipHeight, if_pos rfl, hbelow, not_not]
      exact and_iff_right rfl
    | v2 | v3 => cases hinverted
  | mdbx =>
    rw [not_le]
    exact iff_of_false (Bool.false_ne_true ·.1) hmax.not_gt

section
variable (hwf : VersionRows backend.inverted len rows.entries) (debug : Bool)
include hwf
theorem newestRows_sublist : (newestRows backend debug len rows).Sublist rows.entries := by
  cases hinverted : backend.inverted with
  | true =>
    rw [hinverted] at hwf
    rw [newestRows_inverted hwf hinverted]
    exact firstOfEach_sublist ..
  | false =>
    rw [newestRows, if_neg (by rw [hinverted]; exact Bool.false_ne_true)]
    exact lastOfEach_sublist _ _ _

/-- **The scans keep the newest versions**, up to their height. -/
theorem mem_newestRows : (versionKey backend.inverted owner n, value) ∈ newestRows backend debug len rows ↔
      (versionKey backend.inverted owner n, value) ∈ rows.entries ∧ n ≤ tipHeight backend ∧
        ∀ m w, (versionKey backend.inverted owner m, w) ∈ rows.entries → m ≤ tipHeight backend → m ≤ n := by
  cases hinverted : backend.inverted with
  | true =>
    rw [hinverted] at hwf
    have hmax : ∀ m, m ≤ tipHeight backend := by
      intro m
      rw [tipHeight_of_inverted hinverted]
      exact le_last m
    rw [newestRows_inverted hwf hinverted, mem_firstOfEach (grouped_entries rows) (by simp)]
    simp only [take_versionKey, forall_owned_iff hwf (p := fun key => versionKey true owner n ≤ key),
      versionKey_places_desc.le_iff, hmax, true_implies, true_and, ne_eq, reduceCtorEq, not_false_eq_true]
  | false =>
    rw [hinverted] at hwf
    have hskips : ∀ (owner : Owner len) m,
        decide (backend.isRocksdb = true ∧ rowBlock (versionKey false owner m) = sentinelHeight) = false ↔ m ≤ tipHeight backend := by
      intro _ m
      rw [decide_eq_false_iff_not, rowBlock_versionKey, storedBlock, if_neg Bool.false_ne_true, skipped_iff hinverted, not_not]
    rw [newestRows, if_neg (by rw [hinverted]; exact Bool.false_ne_true), mem_lastOfEach (grouped_entries rows)]
    · simp only [take_versionKey, hskips]
      refine and_congr_right fun _ => and_congr_right fun _ => ?_
      rw [forall_owned_iff hwf (p := fun key => decide (backend.isRocksdb = true ∧ rowBlock key = sentinelHeight) = false →
        key ≤ versionKey false owner n)]
      simp only [hskips]
      refine forall₂_congr fun m w => forall_congr' fun _ => forall_congr' fun _ => ?_
      exact versionKey_places_asc.le_iff
    · rintro ⟨key, w⟩ hrow hskip ⟨key', _⟩ hrow' htake
      obtain ⟨owner, m, rfl⟩ : ∃ (owner : Owner len) (m : U64), _ = versionKey false owner m := hwf _ hrow
      obtain ⟨owner', m', rfl⟩ : ∃ (owner' : Owner _) (m' : _), _ = versionKey _ owner' m' := hwf _ hrow'
      simp only [take_versionKey] at htake
      obtain rfl : owner' = owner := Subtype.ext htake
      have hmax : m = sentinelHeight := by
        have h := (of_decide_eq_true hskip).2
        rwa [rowBlock_versionKey] at h
      refine versionKey_places_asc.le_iff.mpr ?_
      rw [hmax]
      exact le_last m'

theorem pairwise_newestRows : (newestRows backend debug len rows).Pairwise fun a b => a.1.take len < b.1.take len := by
  have hsublist := newestRows_sublist hwf debug
  refine (rows.sorted.sublist hsublist).imp_of_mem fun {a b} ha hb hlt => lt_of_le_of_ne (take_le_take len hlt.le) fun heq => ?_
  obtain ⟨key, value⟩ := a
  obtain ⟨key', value'⟩ := b
  obtain ⟨owner, n, rfl⟩ : ∃ (owner : Owner len) (n : U64), _ = versionKey backend.inverted owner n := hwf _ (hsublist.subset ha)
  obtain ⟨owner', n', rfl⟩ : ∃ (owner : Owner _) (n : _), _ = versionKey backend.inverted owner n := hwf _ (hsublist.subset hb)
  simp only [take_versionKey] at heq
  obtain rfl : owner = owner' := Subtype.ext heq
  obtain ⟨hrow, hle, hnewest⟩ := (mem_newestRows hwf debug).mp ha
  obtain ⟨hrow', hle', hnewest'⟩ := (mem_newestRows hwf debug).mp hb
  obtain rfl : n = n' := le_antisymm (hnewest' n value hrow hle) (hnewest n' value' hrow' hle')
  exact hlt.ne rfl
end

theorem mem_newestRows_iff_find (hwf : (plain rows : VersionTable len).WellFormed backend) (debug : Bool) :
    (versionKey backend.inverted owner n, value) ∈ newestRows backend debug len rows ↔
      (plain rows : VersionTable len).find backend owner (tipHeight backend) = some (n, value) := by
  have hrows := VersionRows.of_wellFormed hwf
  have hread := find_readsLatest hwf owner (tipHeight backend)
  have hnewest : (versionKey backend.inverted owner n, value) ∈ newestRows backend debug len rows ↔
      ReadsLatest (fun m => rows.get (versionKey backend.inverted owner m)) (tipHeight backend) (some (n, value)) := by
    simp only [mem_newestRows hrows, ReadsLatest, OrderedMap.get_eq_some]
  rw [hnewest]
  constructor
  · exact hread.unique
  · intro heq
    rw [heq] at hread
    exact hread

/-! ### Entries by key

What the scans use of the rows they keep: whose a row is, and its value. -/

def tips (backend : Backend) (debug : Bool) (len : Nat) (rows : OrderedMap Bytes Bytes) : List (Bytes × Bytes) :=
  (newestRows backend debug len rows).map fun row => (row.1.take len, row.2)

section
variable (hwf : (plain rows : VersionTable len).WellFormed backend)
include hwf
theorem row_of_mem_tips {debug : Bool} {tip : Bytes × Bytes} (h : tip ∈ tips backend debug len rows) :
    tip.1.length = len ∧ ∃ row ∈ rows.entries, row.2 = tip.2 := by
  obtain ⟨row, hmem, rfl⟩ := mem_map.mp h
  have hrow := (newestRows_sublist (.of_wellFormed hwf) debug).subset hmem
  obtain ⟨owner, n, hkey⟩ := VersionRows.of_wellFormed hwf row hrow
  refine ⟨?_, row, hrow, rfl⟩
  rw [hkey, take_versionKey, owner.2]

theorem mem_tips (debug : Bool) (owner : Owner len) : (owner.1, value) ∈ tips backend debug len rows ↔ ∃ n,
      (plain rows : VersionTable len).find backend owner (tipHeight backend) = some (n, value) := by
  have hrows := VersionRows.of_wellFormed hwf
  rw [tips, mem_map]
  constructor
  · rintro ⟨⟨key, _⟩, hmem, heq⟩
    obtain ⟨hkey, rfl⟩ := Prod.ext_iff.mp heq
    obtain ⟨owner', n, rfl⟩ : ∃ (owner : Owner _) (n : _), _ = versionKey backend.inverted owner n :=
      hrows _ ((newestRows_sublist hrows debug).subset hmem)
    obtain rfl : owner' = owner := Subtype.ext ((take_versionKey ..).symm.trans hkey)
    exact ⟨n, (mem_newestRows_iff_find hwf debug).mp hmem⟩
  · rintro ⟨n, hfind⟩
    exact ⟨_, (mem_newestRows_iff_find hwf debug).mpr hfind, Prod.ext (take_versionKey ..) rfl⟩

theorem pairwise_tips (debug : Bool) : (tips backend debug len rows).Pairwise fun a b => a.1 < b.1 :=
  pairwise_map.mpr (pairwise_newestRows (.of_wellFormed hwf) debug)
end

def accountOfTip (decode : H256 → Bytes → Option NewAccount) (tip : Bytes × Bytes) : Except MigrateError (H256 × NewAccount) :=
  match decode (hashOfBytes tip.1) tip.2 with
  | some account => .ok (hashOfBytes tip.1, account)
  | none => .error .decode

theorem accountIter_eq_tips (debug : Bool) : accountIter codec backend debug (.plain rows) =
    ((tips backend debug 32 rows).filter fun tip => tip.2 ≠ []).mapM (accountOfTip (decodeAccount codec)) := by
  rw [tips, filter_map, mapM_map]
  rfl

theorem storageIter_eq_tips (debug : Bool) : storageIter backend debug (.plain rows) =
    .ok (((tips backend debug 64 rows).map slotOfRow).filter fun slot => slot.2 ≠ 0) := by
  have hslot : ∀ row, slotOfRow (row.1.take 64, row.2) = slotOfRow row := by
    simp [slotOfRow, List.take_take, drop_take]
  simp only [tips, map_map, Function.comp_def, hslot]
  rfl

section
variable {entries : List (Bytes × Bytes)} (hsorted : entries.Pairwise fun a b => a.1 < b.1)
include hsorted
/-- Entries that decode give the accounts, in order. -/
theorem accounts_of_entries {decode : H256 → Bytes → Option NewAccount}
    (hentries : ∀ entry ∈ entries, entry.1.length = 32 ∧ ∃ account, decode (hashOfBytes entry.1) entry.2 = some account) :
    ∃ accounts, entries.mapM (accountOfTip decode) = .ok accounts ∧
      (accounts.Pairwise fun a b => hashBytes a.1 < hashBytes b.1) ∧
      ∀ address account, (address, account) ∈ accounts ↔
        ∃ raw, (hashBytes address, raw) ∈ entries ∧ decode address raw = some account := by
  have hkey : ∀ entry ∈ entries, hashBytes (hashOfBytes entry.1) = entry.1 :=
    fun entry hentry => hashBytes_hashOfBytes (hentries entry hentry).1
  let accountOf := fun entry : Bytes × Bytes => (hashOfBytes entry.1, (decode (hashOfBytes entry.1) entry.2).getD ⟨0, 0, 0, 0⟩)
  refine ⟨entries.map accountOf, mapM_ok fun entry hentry => ?_, ?_, fun address account => ?_⟩
  · obtain ⟨_, haccount⟩ := (hentries entry hentry).2
    simp only [accountOfTip, accountOf, haccount, Option.getD_some]
  · rw [pairwise_map]
    refine hsorted.imp_of_mem fun {a b} ha hb hlt => ?_
    rwa [← hkey a ha, ← hkey b hb] at hlt
  · rw [mem_map]
    constructor
    · rintro ⟨entry, hentry, heq⟩
      obtain ⟨_, haccount⟩ := (hentries entry hentry).2
      obtain ⟨rfl, hvalue⟩ := Prod.ext_iff.mp heq
      simp only [accountOf, haccount] at hvalue
      refine ⟨entry.2, ?_, hvalue ▸ haccount⟩
      rw [hkey entry hentry]
      exact hentry
    · rintro ⟨_, hentry, haccount⟩
      refine ⟨_, hentry, ?_⟩
      simp only [accountOf, hashOfBytes_hashBytes, haccount, Option.getD_some]

theorem slots_of_entries (hentries : ∀ entry ∈ entries, entry.1.length = 64) :
    ((entries.map slotOfRow).Pairwise fun a b => (slotOwner a.1.1 a.1.2).1 < (slotOwner b.1.1 b.1.2).1) ∧
      ∀ address slot value, ((address, slot), value) ∈ entries.map slotOfRow ↔
        ∃ raw, ((slotOwner address slot).1, raw) ∈ entries ∧ decodeStorage raw = value := by
  have howner : ∀ entry ∈ entries, ∃ address slot,
      entry.1 = (slotOwner address slot).1 ∧ slotOfRow entry = ((address, slot), decodeStorage entry.2) := by
    intro entry hentry
    obtain ⟨address, slot, heq⟩ := exists_slotOwner ⟨entry.1, hentries entry hentry⟩
    have hkey : entry.1 = hashBytes address ++ hashBytes slot := congrArg Subtype.val heq
    refine ⟨address, slot, hkey, ?_⟩
    have htake : (hashBytes slot).take 32 = hashBytes slot := take_of_length_le (length_hashBytes slot).le
    rw [slotOfRow, hkey, take_left' (length_hashBytes address), drop_left' (length_hashBytes address), htake,
      hashOfBytes_hashBytes, hashOfBytes_hashBytes]
  refine ⟨pairwise_map.mpr (hsorted.imp_of_mem fun {a b} ha hb hlt => ?_), fun address slot value => ?_⟩
  · obtain ⟨_, _, hkey, heq⟩ := howner a ha
    obtain ⟨_, _, hkey', heq'⟩ := howner b hb
    rwa [heq, heq', ← hkey, ← hkey']
  · rw [mem_map]
    constructor
    · rintro ⟨entry, hentry, heq⟩
      obtain ⟨_, _, hkey, heq'⟩ := howner entry hentry
      obtain ⟨hslot, hvalue⟩ := Prod.ext_iff.mp (heq'.symm.trans heq)
      obtain ⟨rfl, rfl⟩ := Prod.ext_iff.mp hslot
      exact ⟨entry.2, hkey ▸ hentry, hvalue⟩
    · rintro ⟨_, hentry, rfl⟩
      obtain ⟨_, _, hkey, heq⟩ := howner _ hentry
      obtain ⟨rfl, rfl⟩ := slotOwner_inj (Subtype.ext hkey)
      exact ⟨_, hentry, heq⟩
end

/-! ### The scans -/

theorem exists_accountOwner (owner : Owner 32) : ∃ address, owner = accountOwner address :=
  ⟨hashOfBytes owner.1, Subtype.ext (hashBytes_hashOfBytes owner.2).symm⟩

def Decodes (codec : Codec) (rows : OrderedMap Bytes Bytes) : Prop :=
  ∀ row ∈ rows.entries, row.2 ≠ [] → ∃ account, codec.decodeAccount row.2 = some account

/-- The accounts that are read at the height of the scans, in order. -/
def LatestAccounts (codec : Codec) (backend : Backend) (rows : OrderedMap Bytes Bytes) (accounts : List (H256 × NewAccount)) : Prop :=
  (accounts.Pairwise fun a b => hashBytes a.1 < hashBytes b.1) ∧
    ∀ address account, (address, account) ∈ accounts ↔
      ((plain rows : VersionTable 32).find backend (accountOwner address) (tipHeight backend)).bind
        (fun found => Archive.decodeAccount codec address found.2) = some account

/-- **The account scan.** -/
theorem accountIter_ok (hwf : (plain rows : VersionTable 32).WellFormed backend) (hdecodes : Decodes codec rows)
    (debug : Bool) :
    ∃ accounts, accountIter codec backend debug (.plain rows) = .ok accounts ∧ LatestAccounts codec backend rows accounts := by
  have hentries : ∀ tip ∈ (tips backend debug 32 rows).filter fun tip => tip.2 ≠ [],
      tip.1.length = 32 ∧ ∃ account, decodeAccount codec (hashOfBytes tip.1) tip.2 = some account := by
    intro _ htip
    obtain ⟨hmem, hne⟩ := mem_filter.mp htip
    obtain ⟨hlength, row, hrow, heq⟩ := row_of_mem_tips hwf hmem
    rw [← heq] at hne ⊢
    obtain ⟨_, hslim⟩ := hdecodes row hrow (of_decide_eq_true hne)
    rw [decodeAccount, if_neg (of_decide_eq_true hne), hslim]
    exact ⟨hlength, _, rfl⟩
  obtain ⟨accounts, hok, hsorted, hmem⟩ := accounts_of_entries ((pairwise_tips hwf debug).filter _) hentries
  refine ⟨accounts, (accountIter_eq_tips debug).trans hok, hsorted, fun address account => (hmem address account).trans ?_⟩
  rw [Option.bind_eq_some_iff]
  constructor
  · rintro ⟨value, htip, hdecode⟩
    obtain ⟨n, hfind⟩ := (mem_tips hwf debug (accountOwner address)).mp (mem_filter.mp htip).1
    exact ⟨(n, value), hfind, hdecode⟩
  · rintro ⟨⟨n, value⟩, hfind, hdecode⟩
    have hne : value ≠ [] := by
      rintro rfl
      cases hdecode
    exact ⟨value, mem_filter.mpr ⟨(mem_tips hwf debug _).mpr ⟨n, hfind⟩, decide_eq_true hne⟩, hdecode⟩

/-- The slots that are not zero at the height of the scans, in order. -/
def LatestSlots (backend : Backend) (rows : OrderedMap Bytes Bytes) (slots : List ((H256 × H256) × U256)) : Prop :=
  (slots.Pairwise fun a b => (slotOwner a.1.1 a.1.2).1 < (slotOwner b.1.1 b.1.2).1) ∧
    ∀ address slot value, ((address, slot), value) ∈ slots ↔ value ≠ 0 ∧
      ((plain rows : VersionTable 64).find backend (slotOwner address slot) (tipHeight backend)).map
        (fun found => decodeStorage found.2) = some value

/-- **The storage scan.** -/
theorem storageIter_ok (hwf : (plain rows : VersionTable 64).WellFormed backend) (debug : Bool) :
    ∃ slots, storageIter backend debug (.plain rows) = .ok slots ∧ LatestSlots backend rows slots := by
  obtain ⟨hsorted, hmem⟩ := slots_of_entries (pairwise_tips hwf debug) fun _ htip => (row_of_mem_tips hwf htip).1
  refine ⟨_, storageIter_eq_tips debug, hsorted.filter _, fun _ _ _ => ?_⟩
  rw [mem_filter, hmem, decide_eq_true_eq, and_comm, Option.map_eq_some_iff]
  refine and_congr_right fun _ => ?_
  constructor
  · rintro ⟨raw, htip, hvalue⟩
    obtain ⟨n, hfind⟩ := (mem_tips hwf debug _).mp htip
    exact ⟨(n, raw), hfind, hvalue⟩
  · rintro ⟨⟨n, raw⟩, hfind, hvalue⟩
    exact ⟨raw, (mem_tips hwf debug _).mpr ⟨n, hfind⟩, hvalue⟩

/-! ### One history in two encodings -/

/-- `legacy` holds under plain heights the history that `rows` holds under inverted ones. The greatest height is
not a block's: under it `legacy` has sentinels, or none. -/
structure SameHistory (len : Nat) (rows legacy : OrderedMap Bytes Bytes) : Prop where
  wellFormed : (plain legacy : VersionTable len).WellFormed (.rocksdb .v1)
  get_eq : ∀ (owner : Owner len) (n : U64), rows.get (versionKey true owner n) =
    if n = sentinelHeight then none else legacy.get (versionKey false owner n)

section
variable (hwf : (plain rows : VersionTable len).WellFormed (.rocksdb .v2)) {legacy : OrderedMap Bytes Bytes}
include hwf
theorem tips_skipping : tips (.rocksdb .v2) false len rows = tips (.rocksdb .v2) true len rows := by
  rw [tips, tips, newestRows_inverted (.of_wellFormed hwf) rfl, newestRows_inverted (.of_wellFormed hwf) rfl]

theorem SameHistory.find_eq (h : SameHistory len rows legacy) (owner : Owner len) :
    (plain legacy : VersionTable len).find (.rocksdb .v1) owner (tipHeight (.rocksdb .v1)) =
      (plain rows : VersionTable len).find (.rocksdb .v2) owner (tipHeight (.rocksdb .v2)) := by
  have hlegacy := find_readsLatest h.wellFormed owner (tipHeight (.rocksdb .v1))
  have hlast : (tipHeight (.rocksdb .v1)).val + 1 = sentinelHeight.val := by decide
  have hrows := hlegacy.congr fun n (hle : n.val ≤ _) => (h.get_eq owner n).trans (if_neg (by rintro rfl; omega))
  -- From one height to the other only that of the sentinels is added.
  refine (hrows.extend_of_none (by decide) fun n (hlt : _ < n.val) (hle : n ≤ sentinelHeight) => ?_).unique (find_readsLatest hwf owner _)
  exact (h.get_eq owner n).trans (if_pos (le_antisymm hle (le_def.mpr (by omega))))

theorem SameHistory.tips_eq (h : SameHistory len rows legacy) (debug debug' : Bool) :
    tips (.rocksdb .v1) debug len legacy = tips (.rocksdb .v2) debug' len rows := by
  refine (pairwise_tips h.wellFormed debug).eq_of_mem_iff (pairwise_tips hwf debug') fun tip => ?_
  have howner : ∀ hlength : tip.1.length = len,
      tip ∈ tips (.rocksdb .v1) debug len legacy ↔ tip ∈ tips (.rocksdb .v2) debug' len rows := by
    intro hlength
    refine (mem_tips h.wellFormed debug ⟨tip.1, hlength⟩).trans ?_
    rw [h.find_eq hwf]
    exact (mem_tips hwf debug' ⟨tip.1, hlength⟩).symm
  exact ⟨fun htip => (howner (row_of_mem_tips h.wellFormed htip).1).mp htip,
    fun htip => (howner (row_of_mem_tips hwf htip).1).mpr htip⟩
end

/-- **Latest-state scans agree**: skipping and walking give one list, the newest version of every account and
slot in order without deleted accounts and zero slots, and so does the walk over the history in plain heights. -/
theorem latest_scans_agree (codec : Codec) {accounts slots : OrderedMap Bytes Bytes}
    (haccounts : (plain accounts : VersionTable 32).WellFormed (.rocksdb .v2))
    (hslots : (plain slots : VersionTable 64).WellFormed (.rocksdb .v2)) :
    (accountIter codec (.rocksdb .v2) false (.plain accounts) = accountIter codec (.rocksdb .v2) true (.plain accounts) ∧
      storageIter (.rocksdb .v2) false (.plain slots) = storageIter (.rocksdb .v2) true (.plain slots)) ∧
    (∀ legacy debug, SameHistory 32 accounts legacy →
      accountIter codec (.rocksdb .v1) debug (.plain legacy) = accountIter codec (.rocksdb .v2) true (.plain accounts)) ∧
    (∀ legacy debug, SameHistory 64 slots legacy →
      storageIter (.rocksdb .v1) debug (.plain legacy) = storageIter (.rocksdb .v2) true (.plain slots)) ∧
    (Decodes codec accounts → ∃ list, accountIter codec (.rocksdb .v2) true (.plain accounts) = .ok list ∧
      LatestAccounts codec (.rocksdb .v2) accounts list) ∧
    ∃ list, storageIter (.rocksdb .v2) true (.plain slots) = .ok list ∧ LatestSlots (.rocksdb .v2) slots list := by
  refine ⟨⟨?_, ?_⟩, fun legacy debug h => ?_, fun legacy debug h => ?_, fun hdecodes => ?_, ?_⟩
  · rw [accountIter_eq_tips, accountIter_eq_tips, tips_skipping haccounts]
  · rw [storageIter_eq_tips, storageIter_eq_tips, tips_skipping hslots]
  · rw [accountIter_eq_tips, accountIter_eq_tips, h.tips_eq haccounts debug true]
  · rw [storageIter_eq_tips, storageIter_eq_tips, h.tips_eq hslots debug true]
  · exact accountIter_ok haccounts hdecodes true
  · exact storageIter_ok hslots true

section
variable {legacy : OrderedMap Bytes Bytes}

theorem sameHistory_empty : SameHistory len .empty .empty :=
  ⟨wellFormed_empty, fun _ _ => (ite_self _).symm⟩

theorem SameHistory.put (h : SameHistory len rows legacy) (owner : Owner len) (hn : n ≠ sentinelHeight) (value : Bytes) :
    SameHistory len (rows.put (versionKey true owner n) value) (legacy.put (versionKey false owner n) value) := by
  refine ⟨h.wellFormed.put owner n value, fun other m => ?_⟩
  by_cases hsame : other = owner ∧ m = n
  · rw [hsame.1, hsame.2, OrderedMap.get_put_self, if_neg hn, OrderedMap.get_put_self]
  · rw [rows.get_put_of_ne _ fun heq => hsame (versionKey_inj heq),
      legacy.get_put_of_ne _ fun heq => hsame (versionKey_inj heq)]
    exact h.get_eq other m

/-- The sentinels of the history in plain heights are not in the other one. -/
theorem SameHistory.putSentinel (h : SameHistory len rows legacy) (owner : Owner len) (value : Bytes) :
    SameHistory len rows (legacy.put (versionKey false owner sentinelHeight) value) := by
  refine ⟨h.wellFormed.put owner sentinelHeight value, fun other m => (h.get_eq other m).trans ?_⟩
  split
  · rfl
  · next hm => rw [legacy.get_put_of_ne _ fun heq => hm (versionKey_inj heq).2]
end

/-- Account 8 is deleted at height 5, slot 3 of account 7 changes there, and the plain heights have a sentinel. -/
theorem latest_scans_agree_deleted :
    let account := fixedCodec.encodeAccount ⟨100, 1, 0⟩
    let accounts inverted := (((OrderedMap.empty.put (versionKey inverted (accountOwner 7) 2) account).put
      (versionKey inverted (accountOwner 8) 2) account).put (versionKey inverted (accountOwner 8) 5) [])
    let slots inverted := ((OrderedMap.empty.put (versionKey inverted (slotOwner 7 3) 2) (hashBytes 300)).put
      (versionKey inverted (slotOwner 7 3) 5) (hashBytes 400))
    let legacySlots := (slots false).put (versionKey false (slotOwner 7 3) sentinelHeight) (hashBytes 400)
    storageIter (.rocksdb .v2) false (.plain (slots true)) = storageIter (.rocksdb .v2) true (.plain (slots true)) ∧
    accountIter fixedCodec (.rocksdb .v1) false (.plain (accounts false)) =
      accountIter fixedCodec (.rocksdb .v2) true (.plain (accounts true)) ∧
    storageIter (.rocksdb .v1) false (.plain legacySlots) = storageIter (.rocksdb .v2) true (.plain (slots true)) ∧
    (storageIter (.rocksdb .v2) true (.plain (slots true))).toOption = some [((7, 3), 400)] := by
  intro account accounts slots legacySlots
  have haccounts : SameHistory 32 (accounts true) (accounts false) :=
    ((sameHistory_empty.put _ (by decide) _).put _ (by decide) _).put _ (by decide) _
  have hslots : SameHistory 64 (slots true) legacySlots :=
    ((sameHistory_empty.put _ (by decide) _).put _ (by decide) _).putSentinel _ _
  obtain ⟨⟨-, hsame⟩, haccountIter, hstorageIter, -⟩ := latest_scans_agree fixedCodec
    (((wellFormed_empty.put (accountOwner 7) 2 account).put (accountOwner 8) 2 account).put (accountOwner 8) 5 [])
    ((wellFormed_empty.put (slotOwner 7 3) 2 (hashBytes 300)).put (slotOwner 7 3) 5 (hashBytes 400))
  exact ⟨hsame, haccountIter _ _ haccounts, hstorageIter _ _ hslots, by decide +kernel⟩

end LeafageEvm

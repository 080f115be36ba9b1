import LeafageEvm.BlockIndexSave
import LeafageEvm.Outcome
import Mathlib.Algebra.BigOperators.Fin
import Mathlib.Algebra.Order.BigOperators.Group.Finset
import Mathlib.Data.Finset.Sort

/-! The file of the block index: a header, the arrays of each shard as they lie in memory, and a checksum of all of it. How
long the arrays of a shard are is read off its last offset, which is 32 bits wide. -/

namespace LeafageEvm.IndexFile
open List
open Shard (entryBucket)

/-- The lowest `width` bytes of a number, the least significant first. -/
def toLE (width n : Nat) : Bytes := (toBE width n).reverse

def ofLE (bytes : Bytes) : Nat := ofBE bytes.reverse

/-- `as_bytes`: numbers of 32 bits as they lie in memory. -/
def asBytes (words : List Nat) : Bytes := words.flatMap (toLE 4)

def shardBytes (shard : Shard) : Bytes :=
  asBytes shard.offsets ++ (shard.fingerprints.map (Fin.ofNat 256) ++ asBytes (shard.numbers.map Fin.val))

def magic : Bytes := [76, 70, 66, 73, 68, 88, 48, 49]

def header (reserved : Bytes) (k blocks : Nat) (last : U32 × H256) : Bytes :=
  magic ++ (toLE 4 k ++ (reserved ++ (toLE 8 blocks ++ (toLE 8 last.1 ++ hashBytes last.2))))

def blockCount (saved : SavedIndex) : Nat := ∑ s, (saved.shards s).numbers.length

/-- What the checksum is of. -/
def content (saved : SavedIndex) (reserved : Bytes) : Bytes :=
  header reserved saved.k (blockCount saved) saved.last ++ (ofFn saved.shards).flatMap shardBytes

variable (crc : Bytes → U32)

def withCrc (content : Bytes) : Bytes := content ++ toLE 4 (crc content)

/-- What `save` writes. -/
def save (saved : SavedIndex) : Bytes := withCrc crc (content saved (.replicate 4 0))

/-- What `bad` says after the path of the file, or an input that ends too early. -/
inductive FileError where
  | unexpectedEof
  | unsupported (what : String)

def readExact (n : Nat) (input : Bytes) : Except FileError (Bytes × Bytes) :=
  if n ≤ input.length then .ok (input.splitAt n) else .error .unexpectedEof

/-- `read_exact` into numbers of 32 bits. -/
def readWords : Nat → Bytes → Except FileError (List Nat × Bytes)
  | 0, input => .ok ([], input)
  | n + 1, input =>
    (readExact 4 input).bind fun (word, input) =>
    (readWords n input).bind fun (words, input) => .ok (ofLE word :: words, input)

/-- The fields of a header of 64 bytes. -/
def readHeader (header : Bytes) : Except FileError (Nat × Nat × U32 × H256) :=
  (readExact 8 header).bind fun (start, header) =>
  (require (start = magic) (.unsupported "not an archive block index")).bind fun _ =>
  (readExact 4 header).bind fun (k, header) =>
  (require (ofLE k ≤ 24) (.unsupported "bad bucket bits")).bind fun _ =>
  (readExact 4 header).bind fun (_, header) =>
  (readExact 8 header).bind fun (blocks, header) =>
  (readExact 8 header).bind fun (last, hash) =>
  (require (ofLE last < 2 ^ 32) (.unsupported "bad last block")).bind fun _ =>
  .ok (ofLE k, ofLE blocks, Fin.ofNat (2 ^ 32) (ofLE last), hashOfBytes hash)

/-- One turn of the loop over the shards; `read` counts the blocks. -/
def readShard (k blocks read : Nat) (input : Bytes) : Except FileError (Shard × Nat × Bytes) :=
  (readWords (2 ^ k + 1) input).bind fun (offsets, input) =>
  let len := offsets.getLast?.getD 0
  (require (read + len ≤ blocks) (.unsupported "more blocks than its header says")).bind fun _ =>
  (readExact len input).bind fun (fingerprints, input) =>
  (readWords len input).bind fun (numbers, input) =>
  .ok (⟨k, offsets, fingerprints.map Fin.val, numbers.map (Fin.ofNat (2 ^ 32))⟩, read + len, input)

def readShards (k blocks : Nat) : (n : Nat) → Nat → Bytes → Except FileError ((Fin n → Shard) × Nat × Bytes)
  | 0, read, input => .ok (Fin.elim0, read, input)
  | n + 1, read, input =>
    (readShard k blocks read input).bind fun (shard, read, input) =>
    (readShards k blocks n read input).bind fun (shards, read, input) => .ok (Fin.cons shard shards, read, input)

/-- What comes before the checksum, with the count of blocks in the header and that of the blocks read. -/
def readContent (input : Bytes) : Except FileError (SavedIndex × Nat × Nat × Bytes) :=
  (readExact 64 input).bind fun (header, input) =>
  (readHeader header).bind fun (k, blocks, last) =>
  (readShards k blocks 256 0 input).bind fun (shards, read, input) => .ok (⟨k, shards, last⟩, blocks, read, input)

/-- `load`, of a file that may not be there. -/
def load : Option Bytes → Except FileError (Option SavedIndex)
  | none => .ok none
  | some file =>
    (readContent file).bind fun (saved, blocks, read, input) =>
    let content := file.take (file.length - input.length)
    (readExact 4 input).bind fun (stored, input) =>
    (require (read = blocks ∧ (crc content).val = ofLE stored ∧ input = []) (.unsupported "checksum mismatch")).bind fun _ =>
    .ok (some saved)

/-! ### Numbers -/

variable {crc} {width n k blocks read read' : Nat} {bytes input rest file : Bytes} {words : List Nat} {shard : Shard}
  {saved : SavedIndex}

@[simp] theorem length_toLE : (toLE width n).length = width := by
  rw [toLE, length_reverse, length_toBE]

theorem ofLE_toLE (h : n < 256 ^ width) : ofLE (toLE width n) = n := by
  rw [ofLE, toLE, reverse_reverse, ofBE_toBE width h]

section
variable (h : bytes.length = width)
include h
theorem toLE_ofLE : toLE width (ofLE bytes) = bytes := by
  rw [← h, toLE, ofLE, ← length_reverse, toBE_ofBE, reverse_reverse]

theorem ofLE_lt : ofLE bytes < 256 ^ width := by
  rw [← h, ← length_reverse]
  exact ofBE_lt _
end

theorem map_val_ofNat [NeZero n] (h : ∀ word ∈ words, word < n) : (words.map (Fin.ofNat n)).map Fin.val = words := by
  rw [map_map]
  exact (map_congr_left fun word hword => Nat.mod_eq_of_lt (h word hword)).trans (map_id _)

theorem map_ofNat_val [NeZero n] (l : List (Fin n)) : (l.map Fin.val).map (Fin.ofNat n) = l := by
  rw [map_map]
  exact (map_congr_left fun a _ => Fin.ofNat_val_eq_self a).trans (map_id _)

/-! ### What is read -/

theorem readExact_eq_ok : readExact n input = .ok (bytes, rest) ↔ bytes.length = n ∧ input = bytes ++ rest := by
  rw [readExact]
  split
  case isTrue hle =>
    rw [splitAt_eq, Except.ok.injEq, Prod.mk.injEq]
    constructor
    · rintro ⟨rfl, rfl⟩
      exact ⟨length_take_of_le hle, (take_append_drop ..).symm⟩
    · rintro ⟨rfl, rfl⟩
      exact ⟨take_left, drop_left⟩
  case isFalse hlt =>
    refine iff_of_false nofun ?_
    rintro ⟨rfl, rfl⟩
    exact hlt (by rw [length_append]; omega)

theorem asBytes_cons (word : Nat) (words : List Nat) : asBytes (word :: words) = toLE 4 word ++ asBytes words := rfl

theorem readWords_eq_ok : readWords n input = .ok (words, rest) ↔
    words.length = n ∧ (∀ word ∈ words, word < 2 ^ 32) ∧ input = asBytes words ++ rest := by
  induction n generalizing input words rest with
  | zero =>
    simp only [readWords, Except.ok.injEq, Prod.mk.injEq, length_eq_zero_iff]
    constructor
    · rintro ⟨rfl, rfl⟩
      exact ⟨rfl, nofun, rfl⟩
    · rintro ⟨rfl, -, rfl⟩
      exact ⟨rfl, rfl⟩
  | succ n ih =>
    simp only [readWords, bind_eq_ok, Prod.exists, readExact_eq_ok, ih, Except.ok.injEq, Prod.mk.injEq]
    constructor
    · rintro ⟨word, _, ⟨hword, rfl⟩, words, _, ⟨hcount, hlt, rfl⟩, rfl, rfl⟩
      refine ⟨congrArg (· + 1) hcount, forall_mem_cons.mpr ⟨ofLE_lt hword, hlt⟩, ?_⟩
      rw [asBytes_cons, toLE_ofLE hword, append_assoc]
    · rintro ⟨hcount, hlt, rfl⟩
      obtain ⟨word, words, rfl⟩ := exists_cons_of_length_eq_add_one hcount
      obtain ⟨hword, hlt⟩ := forall_mem_cons.mp hlt
      exact ⟨toLE 4 word, _, ⟨length_toLE, append_assoc ..⟩, words, _, ⟨Nat.succ.inj hcount, hlt, rfl⟩,
        by rw [ofLE_toLE hword], rfl⟩

/-- The arrays of a shard have the lengths and widths that a reader takes them to have. -/
structure Packed (k : Nat) (shard : Shard) : Prop where
  bits : shard.k = k
  offsets : shard.offsets.length = 2 ^ k + 1
  fingerprints : shard.fingerprints.length = shard.offsets.getLast?.getD 0
  numbers : shard.numbers.length = shard.offsets.getLast?.getD 0
  offset_lt : ∀ offset ∈ shard.offsets, offset < 2 ^ 32
  fingerprint_lt : ∀ fingerprint ∈ shard.fingerprints, fingerprint < 256

theorem readShard_eq_ok : readShard k blocks read input = .ok (shard, read', rest) ↔
      Packed k shard ∧ read' = read + shard.numbers.length ∧ read' ≤ blocks ∧ input = shardBytes shard ++ rest := by
  simp only [readShard, bind_eq_ok, require_eq_ok, Prod.exists, readWords_eq_ok, readExact_eq_ok, Except.ok.injEq,
    Prod.mk.injEq]
  constructor
  · rintro ⟨offsets, _, ⟨hoffsets, hlt, rfl⟩, -, hle, fingerprints, _, ⟨hfingerprints, rfl⟩, numbers, _,
      ⟨hnumbers, hnumber, rfl⟩, rfl, rfl, rfl⟩
    refine ⟨⟨rfl, hoffsets, by rw [length_map, hfingerprints], by rw [length_map, hnumbers], hlt, ?_⟩, ?_, hle, ?_⟩
    · simp
    · rw [length_map, hnumbers]
    · rw [shardBytes, map_ofNat_val, map_val_ofNat hnumber, append_assoc, append_assoc]
  · rintro ⟨h, rfl, hle, rfl⟩
    refine ⟨shard.offsets, _, ⟨h.offsets, h.offset_lt, append_assoc ..⟩, (), by rwa [← h.numbers],
      shard.fingerprints.map (Fin.ofNat 256), _, ⟨by rw [length_map, h.fingerprints], append_assoc ..⟩,
      shard.numbers.map Fin.val, rest, ⟨by rw [length_map, h.numbers], ?_, rfl⟩, ?_, by rw [h.numbers], rfl⟩
    · simp
    · rw [map_val_ofNat h.fingerprint_lt, map_ofNat_val, ← h.bits]

theorem readShards_eq_ok {shards : Fin n → Shard} (hread : read ≤ blocks) :
    readShards k blocks n read input = .ok (shards, read', rest) ↔
      (∀ s, Packed k (shards s)) ∧ read' = read + ∑ s, (shards s).numbers.length ∧ read' ≤ blocks ∧
        input = (ofFn shards).flatMap shardBytes ++ rest := by
  induction n generalizing read input with
  | zero =>
    simp only [readShards, Except.ok.injEq, Prod.mk.injEq]
    constructor
    · rintro ⟨-, rfl, rfl⟩
      exact ⟨nofun, rfl, hread, rfl⟩
    · rintro ⟨-, rfl, -, rfl⟩
      exact ⟨Subsingleton.elim .., rfl, rfl⟩
  | succ n ih =>
    -- The count only grows, so the check after a shard follows from the one at the end.
    simp only [readShards, bind_eq_ok, Prod.exists, Except.ok.injEq, Prod.mk.injEq, Fin.sum_univ_succ, ofFn_succ,
      flatMap_cons, append_assoc, Fin.forall_fin_succ]
    constructor
    · rintro ⟨shard, _, _, hfirst, others, _, _, hothers, rfl, rfl, rfl⟩
      obtain ⟨hshard, rfl, hle, rfl⟩ := readShard_eq_ok.mp hfirst
      obtain ⟨hpacked, rfl, hle, rfl⟩ := (ih hle).mp hothers
      exact ⟨⟨hshard, hpacked⟩, add_assoc .., hle, rfl⟩
    · rintro ⟨⟨hshard, hpacked⟩, rfl, hle, rfl⟩
      have hfirst : read + (shards 0).numbers.length ≤ blocks := by omega
      exact ⟨_, _, _, readShard_eq_ok.mpr ⟨hshard, rfl, hfirst, rfl⟩, _, _, _,
        (ih hfirst).mpr ⟨hpacked, (add_assoc ..).symm, hle, rfl⟩, Fin.cons_self_tail shards, rfl, rfl⟩

theorem readHeader_eq_ok {head : Bytes} {last : U32 × H256} (hlength : head.length = 64) :
    readHeader head = .ok (k, blocks, last) ↔
      k ≤ 24 ∧ blocks < 2 ^ 64 ∧ ∃ reserved : Bytes, reserved.length = 4 ∧ head = header reserved k blocks last := by
  simp only [readHeader, bind_eq_ok, require_eq_ok, Prod.exists, readExact_eq_ok, Except.ok.injEq, Prod.mk.injEq]
  constructor
  · rintro ⟨_, _, ⟨hmagic, rfl⟩, -, rfl, bits, _, ⟨hbits, rfl⟩, -, hk, reserved, _, ⟨hreserved, rfl⟩, count, _, ⟨hcount, rfl⟩,
      number, hash, ⟨hnumber, rfl⟩, -, hlast, rfl, rfl, rfl⟩
    have hhash : hash.length = 32 := by
      simp only [length_append] at hlength
      omega
    refine ⟨hk, ofLE_lt hcount, reserved, hreserved, ?_⟩
    rw [header, toLE_ofLE hbits, toLE_ofLE hcount, Fin.val_ofNat, Nat.mod_eq_of_lt hlast, toLE_ofLE hnumber,
      hashBytes_hashOfBytes hhash]
  · rintro ⟨hk, hblocks, reserved, hreserved, rfl⟩
    have hbits : ofLE (toLE 4 k) = k := ofLE_toLE (hk.trans_lt (by decide))
    have hlast : ofLE (toLE 8 last.1) = last.1 := ofLE_toLE (last.1.isLt.trans (by decide))
    exact ⟨magic, _, ⟨rfl, rfl⟩, (), rfl, _, _, ⟨length_toLE, rfl⟩, (), hbits.trans_le hk, reserved, _, ⟨hreserved, rfl⟩, _, _,
      ⟨length_toLE, rfl⟩, _, _, ⟨length_toLE, rfl⟩, (), hlast.trans_lt last.1.isLt, hbits, ofLE_toLE hblocks,
      Prod.ext (by rw [hlast, Fin.ofNat_val_eq_self]) (hashOfBytes_hashBytes _)⟩

theorem readContent_eq_ok : readContent input = .ok (saved, blocks, read, rest) ↔
      saved.k ≤ 24 ∧ (∀ s, Packed saved.k (saved.shards s)) ∧ read = blockCount saved ∧ read ≤ blocks ∧ blocks < 2 ^ 64 ∧
        ∃ reserved : Bytes, reserved.length = 4 ∧
          input = header reserved saved.k blocks saved.last ++ (ofFn saved.shards).flatMap shardBytes ++ rest := by
  simp only [readContent, bind_eq_ok, Prod.exists, readExact_eq_ok, Except.ok.injEq, Prod.mk.injEq,
    readShards_eq_ok (Nat.zero_le _), zero_add]
  constructor
  · rintro ⟨head, _, ⟨hlength, rfl⟩, k, _, _, _, hhead, shards, _, _, ⟨hpacked, hread, hle, rfl⟩, rfl, rfl, rfl, rfl⟩
    obtain ⟨hk, hblocks, reserved, hreserved, rfl⟩ := (readHeader_eq_ok hlength).mp hhead
    exact ⟨hk, hpacked, hread, hle, hblocks, reserved, hreserved, (append_assoc ..).symm⟩
  · rintro ⟨hk, hpacked, hread, hle, hblocks, reserved, hreserved, rfl⟩
    have hlength : (header reserved saved.k blocks saved.last).length = 64 := by
      simp [header, magic, hreserved]
    exact ⟨_, _, ⟨hlength, append_assoc ..⟩, _, _, _, _,
      (readHeader_eq_ok hlength).mpr ⟨hk, hblocks, reserved, hreserved, rfl⟩, _, _, _, ⟨hpacked, hread, hle, rfl⟩, rfl, rfl, rfl,
      rfl⟩

/-- **The checks**: the file is the index, with any four bytes in the header's gap, from the first byte to the last. -/
structure Fills (crc : Bytes → U32) (file : Bytes) (saved : SavedIndex) : Prop where
  bits : saved.k ≤ 24
  packed : ∀ s, Packed saved.k (saved.shards s)
  bytes : ∃ reserved : Bytes, reserved.length = 4 ∧ file = withCrc crc (content saved reserved)

theorem Packed.length_lt (h : Packed k shard) : shard.numbers.length < 2 ^ 32 := by
  rw [h.numbers]
  cases hlast : shard.offsets.getLast? with
  | none => exact Nat.two_pow_pos 32
  | some offset => exact h.offset_lt offset (mem_of_getLast? hlast)

theorem blockCount_lt (h : ∀ s, Packed k (saved.shards s)) : blockCount saved < 2 ^ 64 := by
  calc blockCount saved ≤ ∑ _s : Fin 256, 2 ^ 32 := Finset.sum_le_sum fun s _ => (h s).length_lt.le
    _ < 2 ^ 64 := by simp

/-- A file is read up to its checksum, whatever follows it. -/
theorem Fills.readContent (h : Fills crc file saved) (rest : Bytes) : ∃ stored : Bytes, stored.length = 4 ∧
    readContent (file ++ rest) = .ok (saved, blockCount saved, blockCount saved, stored ++ rest) := by
  obtain ⟨reserved, hreserved, rfl⟩ := h.bytes
  refine ⟨toLE 4 (crc (content saved reserved)), length_toLE, readContent_eq_ok.mpr ?_⟩
  exact ⟨h.bits, h.packed, rfl, le_rfl, blockCount_lt h.packed, reserved, hreserved, append_assoc ..⟩

theorem take_front (front back : Bytes) : (front ++ back).take ((front ++ back).length - back.length) = front := by
  rw [length_append, Nat.add_sub_cancel, take_left]

/-- **What is loaded.** -/
theorem load_eq_ok : load crc (some file) = .ok (some saved) ↔ Fills crc file saved := by
  simp only [load, bind_eq_ok, require_eq_ok, Prod.exists, readExact_eq_ok, Except.ok.injEq, Option.some.injEq,
    readContent_eq_ok]
  constructor
  · rintro ⟨saved, blocks, _, _, ⟨hk, hpacked, hread, -, -, reserved, hreserved, rfl⟩, stored, _, ⟨hstored, rfl⟩, -,
      ⟨rfl, hcrc, rfl⟩, rfl⟩
    rw [take_front] at hcrc
    refine ⟨hk, hpacked, reserved, hreserved, ?_⟩
    rw [withCrc, content, ← hread, hcrc, toLE_ofLE hstored, append_nil]
  · rintro ⟨hk, hpacked, reserved, hreserved, rfl⟩
    have hlt : (crc (content saved reserved)).val < 256 ^ 4 := (crc _).isLt
    refine ⟨saved, _, _, _, ⟨hk, hpacked, rfl, le_rfl, blockCount_lt hpacked, reserved, hreserved, rfl⟩, _, [],
      ⟨length_toLE, (append_nil _).symm⟩, (), ⟨rfl, ?_, rfl⟩, rfl⟩
    rw [withCrc, take_front, ofLE_toLE hlt]

theorem rejected (h : ∀ saved, ¬ Fills crc file saved) : ∃ error, load crc (some file) = .error error := by
  cases hload : load crc (some file) with
  | error error => exact ⟨error, rfl⟩
  | ok found =>
    cases found with
    | some saved => exact absurd (load_eq_ok.mp hload) (h saved)
    | none =>
      iterate 3 obtain ⟨_, hload⟩ := rest_ok hload
      cases hload

/-- The front of a file is not a file. -/
theorem Fills.not_front {saved' : SavedIndex} (h : Fills crc (file ++ rest) saved) (hrest : rest ≠ []) :
    ¬ Fills crc file saved' := by
  intro hfront
  obtain ⟨stored, hstored, hread⟩ := hfront.readContent rest
  obtain ⟨stored', hstored', hread'⟩ := h.readContent []
  rw [append_nil, hread, append_nil] at hread'
  have hback : stored ++ rest = stored' := congrArg (·.2.2.2) (Except.ok.inj hread')
  have hlength := congrArg length hback
  rw [length_append, hstored, hstored'] at hlength
  exact hrest (length_eq_zero_iff.mp (Nat.add_eq_left.mp hlength))

/-! ### The shards of sets of entries -/

/-- The shard of a set of entries. -/
def ofSet (k : Nat) (set : Finset ShardEntry) : Shard := .fromSorted k set.sort

variable {set : Finset ShardEntry}

theorem sorted_sort (set : Finset ShardEntry) : set.sort.Pairwise (· < ·) := set.sortedLT_sort.pairwise

theorem holds_ofSet (hbucket : ∀ entry ∈ set, entryBucket entry < 2 ^ k) (hcard : set.card < 2 ^ 32) :
    (ofSet k set).Holds set.sort where
  eq := rfl
  sorted := sorted_sort set
  bucket_lt entry hentry := hbucket entry ((Finset.mem_sort _).mp hentry)
  length_lt := by rwa [Finset.length_sort]

theorem offset_ofSet (h : (ofSet k set).Holds set.sort) {b : Nat} (hb : b ≤ 2 ^ k) :
    (ofSet k set).offsets.getD b 0 = (set.filter (entryBucket · < b)).card := by
  rw [h.offset hb, Buckets.below, ← Multiset.coe_countP, Finset.sort_eq, Multiset.countP_eq_card_filter]
  rfl

theorem packed_ofSet (h : (ofSet k set).Holds set.sort) : Packed k (ofSet k set) := by
  have hlength : (ofSet k set).offsets.length = 2 ^ k + 1 := by
    rw [h.offsets_eq, length_map, length_range]
    rfl
  have hlast : (ofSet k set).offsets.getLast?.getD 0 = set.sort.length := by
    rw [getLast?_eq_getElem?, hlength, Nat.add_sub_cancel, ← getD_eq_getElem?_getD]
    exact (h.offset le_rfl).trans (Buckets.below_eq_length h.bucket_lt)
  refine ⟨rfl, hlength, ?_, ?_, ?_, ?_⟩
  · rw [hlast]
    exact length_map _
  · rw [hlast]
    exact length_map _
  · rw [h.offsets_eq, forall_mem_map]
    exact fun _ _ => Nat.mod_lt _ (by decide)
  · refine forall_mem_map.mpr fun _ _ => Nat.mod_lt _ (by decide)

theorem merged_ofSet (h : (ofSet k set).Holds set.sort) (new : Finset ShardEntry) :
    (ofSet k set).merged new.sort = ofSet k (set ∪ new) := by
  rw [Shard.merged, h.entries_eq]
  refine congrArg (Shard.fromSorted k) ((Shard.sorted_mergeNew (sorted_sort _) (sorted_sort _)).eq_of_mem_iff (sorted_sort _) ?_)
  simp [Shard.mem_mergeNew]

/-- **The file and the shards of the block index**, for all sets of entries, fewer than 2^32 to a shard. What is saved is
loaded as it was. A file that is not one from its first byte to its last is rejected, whatever was cut off or altered. A merge
makes the shard of the union, with the offsets that its entries ask for. -/
theorem load_save_merge (crc : Bytes → U32) (hk : k ≤ 24) {sets : Fin 256 → Finset ShardEntry}
    (hbucket : ∀ s, ∀ entry ∈ sets s, entryBucket entry < 2 ^ k) (hcard : ∀ s, (sets s).card < 2 ^ 32) :
    (∀ (index : BlockIndex) (saved : SavedIndex), (∀ s, index.shards s = ofSet k (sets s)) → index.saved = some saved →
      load crc (some (save crc saved)) = .ok (some saved) ∧ saved.load.shards = index.shards) ∧
    (∀ file saved, load crc (some file) = .ok (some saved) ↔ Fills crc file saved) ∧
    (∀ file, (∀ saved, ¬ Fills crc file saved) → ∃ error, load crc (some file) = .error error) ∧
    (∀ file rest saved, load crc (some (file ++ rest)) = .ok (some saved) → rest ≠ [] →
      ∃ error, load crc (some file) = .error error) ∧
    ∀ s new, (sets s ∪ new).card < 2 ^ 32 → (∀ entry ∈ new, entryBucket entry < 2 ^ k) →
      (ofSet k (sets s)).merged new.sort = ofSet k (sets s ∪ new) ∧
        ∀ b ≤ 2 ^ k, ((ofSet k (sets s)).merged new.sort).offsets.getD b 0 =
          ((sets s ∪ new).filter (entryBucket · < b)).card := by
  have hholds : ∀ s, (ofSet k (sets s)).Holds (sets s).sort := fun s => holds_ofSet (hbucket s) (hcard s)
  refine ⟨fun index saved hshards hsaved => ?_, fun _ _ => load_eq_ok, fun _ => rejected, ?_, fun s new hunion hnew => ?_⟩
  · obtain ⟨last, -, rfl⟩ := Option.map_eq_some_iff.mp hsaved
    have hbits : ∀ s, (index.shards s).k = k := fun s => congrArg Shard.k (hshards s)
    refine ⟨load_eq_ok.mpr ⟨(hbits 0).trans_le hk, fun s => ?_, _, length_replicate, rfl⟩, funext fun s => ?_⟩
    · show Packed (index.shards 0).k (index.shards s)
      rw [hbits, hshards]
      exact packed_ofSet (hholds s)
    · show { index.shards s with k := (index.shards 0).k } = index.shards s
      rw [hbits, ← hbits s]
  · intro file rest saved hload hrest
    exact rejected fun _ => (load_eq_ok.mp hload).not_front hrest
  · have hmerged := merged_ofSet (hholds s) new
    refine ⟨hmerged, fun b hb => ?_⟩
    rw [hmerged]
    refine offset_ofSet (holds_ofSet (fun entry hentry => ?_) hunion) hb
    exact (Finset.mem_union.mp hentry).elim (hbucket s entry) (hnew entry)

/-- Two entries in each shard and one that is merged between them. -/
theorem load_save_merge_two :
    let set : Finset ShardEntry := {toLex (5, 7), toLex (600, 2)}
    let saved : SavedIndex := ⟨8, fun _ => ofSet 8 set, (7, 0)⟩
    load (fun _ => 0) (some (save (fun _ => 0) saved)) = .ok (some saved) ∧
    (∀ file rest, save (fun _ => 0) saved = file ++ rest → rest ≠ [] → ∃ error, load (fun _ => 0) (some file) = .error error) ∧
    (ofSet 8 set).merged (Finset.sort {toLex (90, 4)}) = ofSet 8 {toLex (5, 7), toLex (600, 2), toLex (90, 4)} ∧
    ((ofSet 8 set).merged (Finset.sort {toLex (90, 4)})).offsets.getD 1 0 = 2 := by
  intro set saved
  obtain ⟨hload, -, -, hfront, hmerge⟩ := @load_save_merge 8 (fun _ => 0) (by decide) (fun _ => set) (fun _ => by decide)
    fun _ => by decide
  have hloaded := (hload ⟨fun _ => ofSet 8 set, ⟨.empty, .empty, none⟩, some (7, 0)⟩ _ (fun _ => rfl) rfl).1
  obtain ⟨hmerged, hoffsets⟩ := hmerge 0 {toLex (90, 4)} (by decide) (by decide)
  refine ⟨hloaded, fun file rest heq hrest => hfront file rest saved (heq ▸ hloaded) hrest, hmerged, ?_⟩
  exact (hoffsets 1 (by decide)).trans (by decide)

/-- **A shard with too many blocks** is not loaded again. -/
theorem full_shard_not_loaded :
    ∃ set : Finset ShardEntry, (∀ entry ∈ set, entryBucket entry < 2 ^ 16) ∧
      ∀ crc saved, saved.shards 0 = ofSet 16 set → load crc (some (save crc saved)) ≠ .ok (some saved) := by
  let entry : U32 ↪ ShardEntry := ⟨fun n => toLex (0, n), fun a b h => congrArg (fun e => (ofLex e).2) h⟩
  refine ⟨Finset.univ.map entry, fun _ hentry => ?_, fun _ saved hshard hload => ?_⟩
  · obtain ⟨n, -, rfl⟩ := Finset.mem_map.mp hentry
    exact (by decide : 0 / 256 < 2 ^ 16)
  have hpacked := (load_eq_ok.mp hload).packed 0
  have hlength : (saved.shards 0).numbers.length = 2 ^ 32 := by
    rw [hshard, ofSet, Shard.fromSorted, length_map, Finset.length_sort, Finset.card_map, Finset.card_univ, Fintype.card_fin]
  have hlt := hpacked.length_lt
  omega

end LeafageEvm.IndexFile

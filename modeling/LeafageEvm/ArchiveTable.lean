import LeafageEvm.ArchiveEncoding
import LeafageEvm.Batch
import Mathlib.Data.Prod.Lex

/-! The versioned tables of the archive backends. RocksDB keeps them in three layouts: under the
encoded keys with plain heights (v1) or inverted ones (v2), or under the owner alone with the height
as the timestamp of the row (v3). MDBX keeps them in the first two, and positions backwards by way of
a forward seek. -/

namespace LeafageEvm
open OrderedMap OrderDual

inductive ArchiveSchema where
  | v1 | v2 | v3
  deriving DecidableEq

inductive Backend where
  | rocksdb (schema : ArchiveSchema)
  | mdbx (inverted : Bool)
  deriving DecidableEq

/-- Whether versioned keys hold inverted heights. -/
def Backend.inverted : Backend → Bool
  | .rocksdb schema => schema ≠ .v1
  | .mdbx inverted => inverted

/-- A versioned table. A timestamped row sorts by its key, then newest first. -/
inductive VersionTable (len : Nat) where
  | plain (rows : OrderedMap Bytes Bytes)
  | stamped (rows : OrderedMap (Bytes ×ₗ U64ᵒᵈ) Bytes)

namespace VersionTable

variable {backend : Backend} {writes : List (Bytes × Bytes)}
variable {len : Nat} {table : VersionTable len}

def isPlain : VersionTable len → Bool
  | .plain _ => true
  | .stamped _ => false

theorem exists_of_isPlain (h : table.isPlain = true) : ∃ rows, table = .plain rows := by
  cases table with
  | plain rows => exact ⟨rows, rfl⟩
  | stamped => cases h

def empty (backend : Backend) : VersionTable len :=
  if backend = .rocksdb .v3 then .stamped .empty else .plain .empty

/-- The row of a timestamped table that an encoded key stands for. -/
def stamp (backend : Backend) (len : Nat) (key : Bytes) : Bytes ×ₗ U64ᵒᵈ :=
  toLex (key.take len, toDual (decodeVersionTail backend.inverted (key.drop len)))

/-- `put_account_version`, `put_storage_version`: one version under its encoded key. -/
def put (backend : Backend) (table : VersionTable len) (key value : Bytes) : VersionTable len :=
  match table with
  | .plain rows => .plain (rows.put key value)
  | .stamped rows => .stamped (rows.put (stamp backend len key) value)

def row (backend : Backend) (table : VersionTable len) (key : Bytes) : Option Bytes :=
  match table with
  | .plain rows => rows.get key
  | .stamped rows => rows.get (stamp backend len key)

/-- `seek_version`: position a cursor of encoded keys. -/
def seekVersion (backend : Backend) (rows : OrderedMap Bytes Bytes) (key : Bytes) :
    Option (Bytes × Bytes) :=
  if backend.inverted then rows.seek key
  else match backend with
    | .rocksdb _ => rows.seekForPrev key
    | .mdbx _ => rows.seekLe key

/-- The newest version of an owner at or below a height, with its height. -/
def find (backend : Backend) (table : VersionTable len) (owner : Owner len) (blockNum : U64) :
    Option (U64 × Bytes) :=
  match table with
  | .plain rows =>
    (seekVersion backend rows (versionKey backend.inverted owner blockNum)).bind fun entry =>
      (ownedVersion backend.inverted owner entry.1).map fun version => (version, entry.2)
  | .stamped rows =>
    (rows.seek (toLex (owner.1, toDual blockNum))).bind fun entry =>
      (if (ofLex entry.1).1 = owner.1 then some (ofDual (ofLex entry.1).2) else none).map
        fun version => (version, entry.2)

def WellFormed (backend : Backend) : VersionTable len → Prop
  | .plain rows => HoldsVersions (versionKey backend.inverted : Owner len → U64 → Bytes) rows
  | .stamped rows =>
    HoldsVersions (fun (owner : Owner len) (n : U64) => toLex (owner.1, toDual n)) rows

/-! ### Reads -/

theorem stamp_versionKey (backend : Backend) (owner : Owner len) (n : U64) :
    stamp backend len (versionKey backend.inverted owner n) = toLex (owner.1, toDual n) := by
  rw [stamp, take_versionKey, drop_versionKey, decodeVersionTail_encodeVersionTail]

/-- Timestamps place versions newest first. -/
theorem stamp_places : PlacesVersions (· ≤ ·) (fun (owner : Owner len) (n : U64) => toLex (owner.1, toDual n)) where
  le_iff := by
    intro _ n m
    rw [Prod.Lex.toLex_le_toLex]
    simp
  between := by
    intro _ _ n m l hlow hhigh
    rw [Prod.Lex.toLex_le_toLex] at hlow hhigh
    rcases hlow with hlt | ⟨heq, -⟩
    · rcases hhigh with hgt | ⟨heq, -⟩
      · exact absurd hgt hlt.not_gt
      · exact Subtype.ext heq
    · exact Subtype.ext heq.symm

theorem seekVersion_firstFrom (backend : Backend) (rows : OrderedMap Bytes Bytes) (key : Bytes) :
    FirstFrom (if backend.inverted then (· ≤ ·) else (· ≥ ·)) rows key (seekVersion backend rows key) := by
  unfold seekVersion
  split
  · exact seek_firstFrom rows key
  cases backend with
  | rocksdb => exact seekForPrev_firstFrom ..
  | mdbx =>
    rw [seekLe_eq_seekForPrev]
    exact seekForPrev_firstFrom rows key

theorem versionKey_places (inverted : Bool) : PlacesVersions (if inverted then (· ≤ ·) else (· ≥ ·))
    (versionKey inverted : Owner len → U64 → Bytes) := by
  cases inverted
  · exact versionKey_places_asc
  · exact versionKey_places_desc

/-- **A read finds the newest version at or below its height**, in every layout. -/
theorem find_readsLatest (hwf : table.WellFormed backend) (owner : Owner len) (blockNum : U64) :
    ReadsLatest (fun n => table.row backend (versionKey backend.inverted owner n)) blockNum
      (table.find backend owner blockNum) := by
  cases table with
  | plain rows =>
    exact (versionKey_places backend.inverted).readsLatest hwf
      (seekVersion_firstFrom backend rows _) (ownedVersion backend.inverted owner) (ownedVersion_self backend.inverted owner)
      (fun _ n hne => ownedVersion_of_ne n hne)
  | stamped rows =>
    have h := stamp_places.readsLatest hwf (seek_firstFrom rows (toLex (owner.1, toDual blockNum)))
      (fun key => if (ofLex key).1 = owner.1 then some (ofDual (ofLex key).2) else none)
      (fun n => if_pos rfl) (fun _ n hne => if_neg fun heq => hne (Subtype.ext heq))
    simp only [row, stamp_versionKey]
    exact h

/-- The tables have the same versions up to a height. -/
def AgreeUpTo (backend : Backend) (h : U64) (table table' : VersionTable len) : Prop :=
  ∀ (owner : Owner len) n, n ≤ h → table.row backend (versionKey backend.inverted owner n) =
    table'.row backend (versionKey backend.inverted owner n)

theorem AgreeUpTo.find {h : U64} {table' : VersionTable len} (hagree : table.AgreeUpTo backend h table')
    (hwf : table.WellFormed backend) (hwf' : table'.WellFormed backend) (owner : Owner len) {block : U64} (hle : block ≤ h) :
    table.find backend owner block = table'.find backend owner block := by
  refine (find_readsLatest hwf owner block).unique ?_
  exact (find_readsLatest hwf' owner block).congr fun n hn => hagree owner n (hn.trans hle)

/-! ### Writes -/

theorem wellFormed_empty : (empty backend : VersionTable len).WellFormed backend := by
  unfold empty
  split <;> exact nofun

theorem WellFormed.put (h : table.WellFormed backend) (owner : Owner len) (n : U64) (value : Bytes) :
    (table.put backend (versionKey backend.inverted owner n) value).WellFormed backend := by
  cases table with
  | plain =>
    intro key row hget
    rcases mem_put.mp (get_eq_some.mp hget) with heq | ⟨hold, -⟩
    · exact ⟨owner, n, (Prod.ext_iff.mp heq).1⟩
    · exact h key row (get_eq_some.mpr hold)
  | stamped =>
    intro key row hget
    rcases mem_put.mp (get_eq_some.mp hget) with heq | ⟨hold, -⟩
    · exact ⟨owner, n, (Prod.ext_iff.mp heq).1.trans (stamp_versionKey backend owner n)⟩
    · exact h key row (get_eq_some.mpr hold)

def Versioned (backend : Backend) (len : Nat) (writes : List (Bytes × Bytes)) : Prop :=
  ∀ write ∈ writes, ∃ (owner : Owner len) (n : U64), write.1 = versionKey backend.inverted owner n

/-- Apply the writes of a batch in turn. -/
def putAll (backend : Backend) (table : VersionTable len) (writes : List (Bytes × Bytes)) :
    VersionTable len :=
  writes.foldl (fun table write => table.put backend write.1 write.2) table

theorem WellFormed.putAll (h : table.WellFormed backend) (hwrites : Versioned backend len writes) :
    (table.putAll backend writes).WellFormed backend := by
  induction writes generalizing table with
  | nil => exact h
  | cons write _ ih =>
    obtain ⟨owner, n, hkey⟩ := hwrites write (.head _)
    apply ih
    · show (table.put backend write.1 write.2).WellFormed backend
      rw [hkey]
      exact h.put owner n write.2
    · exact fun w hw => hwrites w (.tail _ hw)

section
variable (table : VersionTable len)

theorem row_put_self (key value : Bytes) : (table.put backend key value).row backend key = some value := by
  cases table with
  | plain rows => exact rows.get_put_self key value
  | stamped rows => exact rows.get_put_self _ value

theorem row_put_of_ne {owner owner' : Owner len} {n n' : U64} (value : Bytes)
    (h : versionKey backend.inverted owner n ≠ versionKey backend.inverted owner' n') :
    (table.put backend (versionKey backend.inverted owner n) value).row backend
        (versionKey backend.inverted owner' n') =
      table.row backend (versionKey backend.inverted owner' n') := by
  cases table with
  | plain rows => exact rows.get_put_of_ne value h.symm
  | stamped rows =>
    apply rows.get_put_of_ne value
    rw [stamp_versionKey, stamp_versionKey]
    intro heq
    have hpair := Prod.ext_iff.mp (toLex.injective heq)
    apply h
    rw [Subtype.ext hpair.1, toDual.injective hpair.2]

theorem row_putAll (hwrites : Versioned backend len writes) (owner : Owner len) (n : U64) :
    (table.putAll backend writes).row backend (versionKey backend.inverted owner n) =
      lastWrite (table.row backend (versionKey backend.inverted owner n)) writes
        (versionKey backend.inverted owner n) := by
  induction writes generalizing table with
  | nil => rfl
  | cons write _ ih =>
    obtain ⟨_, _, hkey⟩ := hwrites write (.head _)
    have hrest := ih (table.put backend write.1 write.2) fun w hw => hwrites w (.tail _ hw)
    rw [lastWrite_cons]
    refine hrest.trans ?_
    congr 1
    by_cases heq : write.1 = versionKey backend.inverted owner n
    · rw [if_pos heq, heq, row_put_self]
    · rw [if_neg heq, hkey]
      rw [hkey] at heq
      exact row_put_of_ne table write.2 heq
end

end VersionTable
end LeafageEvm

import LeafageEvm.ArchiveRefine

/-! The cache of archive reads. It keeps, per key, spans of blocks over which the key holds one value.
A read that misses records the span it has learned: from the version it found up to its own block, or
further if it looked for the next newer version. -/

namespace LeafageEvm
open VersionTable Fin Option List

/-- One span of blocks over which a key holds a single value. -/
structure Span (V : Type) where
  lo : U64
  hi : U64
  found : Bool
  value : V
  deriving DecidableEq

/-- What a miss does about the key's next version. -/
inductive Probe where
  | yes | no | atHead | capped
  deriving DecidableEq

/-- The spans of a key and the highest version of it known to exist, or `volatile`. -/
structure Entry (V : Type) where
  newest : U64
  spans : List (Span V)
  deriving DecidableEq

/-- The spans kept per key. -/
def maxSpans : Nat := 4

/-- A key whose next version is fewer blocks away is not probed again. -/
def volatileSpan : Nat := 64

/-- `Entry.newest` of such a key. -/
def volatile : U64 := Fin.last _

variable {V : Type}

namespace Span

def covers (span : Span V) (block : U64) : Bool := span.lo ≤ block && block ≤ span.hi

/-- The same block wrote both, or neither was ever written. -/
def sameVersion (span other : Span V) : Bool := span.found == other.found && span.lo == other.lo

/-- What a hit returns: the value and the block that wrote it. -/
def answer (span : Span V) : V × Option U64 := (span.value, if span.found then some span.lo else none)

end Span

/-- Whether a version above the one `read` found is known to exist. -/
def Entry.knowsNewerThan (entry : Entry V) (read : Span V) : Bool :=
  if read.found then read.lo < entry.newest else 0 < entry.newest

namespace StateCache

/-- Whether a miss at `block` on a key with the entry `prev` should look for the key's next version. -/
def probe (prev : Option (Entry V)) (head block : U64) (read : Span V) : Probe :=
  match prev with
  | some entry =>
    if entry.newest ≠ volatile then
      if head ≤ block then .atHead
      else if entry.knowsNewerThan read then .capped
      else .yes
    else .no
  | none => .no

def extendSpan (span : Span V) : List (Span V) → List (Span V)
  | [] => []
  | same :: spans =>
    if same.sameVersion span then { same with hi := max same.hi span.hi } :: spans
    else same :: extendSpan span spans

/-- `Vec::swap_remove`: the last element takes the place of the one removed. -/
def swapRemove {A : Type} (items : List A) (i : Nat) : List A :=
  match items.getLast? with
  | some last => (items.set i last).dropLast
  | none => items

/-- The first span at the lowest heights. -/
def oldestSpan (spans : List (Span V)) : Nat :=
  spans.findIdx fun span => spans.all fun other => span.hi ≤ other.hi

def merge (prev : Option (Entry V)) (span : Span V) (short : Bool) (newest : U64) : Entry V :=
  let kept := (prev.map (·.spans)).getD []
  let spans :=
    if kept.any (·.sameVersion span) then extendSpan span kept
    else (if kept.length = maxSpans then swapRemove kept (oldestSpan kept) else kept) ++ [span]
  { newest := if short then volatile else max ((prev.map (·.newest)).getD 0) newest
    spans := spans }

/-- `record`: a next version that ended the span sits right above it. -/
def record (prev : Option (Entry V)) (span : Span V) (nextVersionFound : Bool) : Entry V :=
  merge prev span (nextVersionFound && (span.hi : Nat) + 1 - span.lo < volatileSpan) 0

/-- `record_udt`: `newer` is a version above the span. -/
def recordUdt (prev : Option (Entry V)) (span : Span V) (newer : Option U64) : Entry V :=
  merge prev span (newer.any fun n => (n : Nat) - span.lo < volatileSpan)
    (max (newer.getD 0) (if span.found then span.lo else 0))

end StateCache

def Entry.lookup (entry : Entry V) (block : U64) : Option (Span V) :=
  entry.spans.find? fun span => span.covers block

/-- After a seek landed on a version of the owner, step back to its next newer one: the last block the
read value is known to hold at, and whether a next version is what ended it. -/
def newerVersionBound {len : Nat} (rows : OrderedMap Bytes Bytes) (owner : Owner len)
    (version block head : U64) : U64 × Bool :=
  match rows.prev (versionKey true owner version) with
  | some (raw, _) =>
    match ownedVersion true owner raw with
    | some next =>
      let beforeNext : U64 := ⟨next - 1, by omega⟩
      if beforeNext ≤ head then (max beforeNext block, true) else (head, false)
    | none => (head, false)
  | none => (head, false)

/-! ### Merging -/

namespace StateCache

theorem mem_swapRemove {A : Type} {items : List A} {i : Nat} {a : A} (h : a ∈ swapRemove items i) : a ∈ items := by
  unfold swapRemove at h
  cases hlast : items.getLast? with
  | none =>
    rw [hlast] at h
    exact h
  | some =>
    rw [hlast] at h
    rcases mem_or_eq_of_mem_set (dropLast_subset _ h) with hmem | rfl
    · exact hmem
    · exact mem_of_getLast? hlast

theorem mem_extendSpan {span span' : Span V} {spans : List (Span V)} (h : span' ∈ extendSpan span spans) :
    span' ∈ spans ∨ ∃ same ∈ spans, same.sameVersion span = true ∧ span' = { same with hi := max same.hi span.hi } := by
  induction spans with
  | nil => cases h
  | cons first _ ih =>
    rw [extendSpan] at h
    split at h
    · next hsame =>
      rcases mem_cons.mp h with rfl | hmem
      · exact .inr ⟨first, .head _, hsame, rfl⟩
      · exact .inl (.tail _ hmem)
    rcases mem_cons.mp h with rfl | hmem
    · exact .inl (.head _)
    · rcases ih hmem with hold | ⟨same, hmem, hsame⟩
      · exact .inl (.tail _ hold)
      · exact .inr ⟨same, .tail _ hmem, hsame⟩

/-- **Merging keeps what its spans have in common.** A property of spans that passes to a span
extended by another of its version holds of all spans of the merged entry. -/
theorem forall_mem_merge {P : Span V → Prop} {prev : Option (Entry V)} {span : Span V} (short : Bool)
    (newest : U64) (hprev : ∀ entry, prev = some entry → ∀ s ∈ entry.spans, P s) (hspan : P span)
    (hextend : ∀ same, P same → same.sameVersion span = true → P { same with hi := max same.hi span.hi }) :
    ∀ s ∈ (merge prev span short newest).spans, P s := by
  have hkept : ∀ s ∈ (prev.map (·.spans)).getD [], P s := by
    cases prev with
    | none => exact forall_mem_nil _
    | some entry => exact hprev entry rfl
  intro s hs
  simp only [merge] at hs
  split at hs
  · rcases mem_extendSpan hs with hold | ⟨same, hmem, hsame, rfl⟩
    · exact hkept s hold
    · exact hextend same (hkept same hmem) hsame
  rcases mem_append.mp hs with hold | hnew
  · split at hold
    · exact hkept s (mem_swapRemove hold)
    · exact hkept s hold
  · rw [mem_singleton.mp hnew]
    exact hspan

end StateCache

/-! ### Spans and the archive -/

section
variable {len : Nat} {backend : Backend}

/-- An uncached read: the value and the block that wrote it. -/
def VersionTable.readAt (decode : Bytes → V) (backend : Backend) (table : VersionTable len) (owner : Owner len)
    (block : U64) : V × Option U64 :=
  match table.find backend owner block with
  | some (version, raw) => (decode raw, some version)
  | none => (decode [], none)

theorem Archive.readStorageAndHeight_eq_readAt (archive : Archive) (blockNum : U64) (address slot : H256) :
    archive.readStorageAndHeight blockNum address slot =
      archive.storage.readAt decodeStorage archive.backend (slotOwner address slot) blockNum := by
  cases archive.storage.find archive.backend (slotOwner address slot) blockNum with
  | none => rfl
  | some => rfl

/-- An account as the cache keeps it, without its address. -/
def cachedAccount (codec : Codec) (raw : Bytes) : Option AccountInfo :=
  (Archive.decodeAccount codec 0 raw).map NewAccount.toAccountInfo

theorem Archive.readAccount_eq_readAt (codec : Codec) (archive : Archive) (blockNum : U64) (address : H256) :
    archive.readAccount codec blockNum address =
      (archive.accounts.readAt (cachedAccount codec) archive.backend (accountOwner address) blockNum).1.map
        (AccountInfo.toNewAccount address) := by
  unfold readAccount readAt
  cases archive.accounts.find archive.backend (accountOwner address) blockNum with
  | none => rfl
  | some =>
    simp only [bind_some, cachedAccount, decodeAccount]
    split
    · rfl
    · rw [Option.map_map, Option.map_map]
      rfl

def readSpan (decode : Bytes → V) (found : Option (U64 × Bytes)) (block : U64) : Span V where
  lo := (found.map (·.1)).getD 0
  hi := block
  found := found.isSome
  value := decode ((found.map (·.2)).getD [])

def Span.Matches (decode : Bytes → V) (backend : Backend) (table : VersionTable len) (owner : Owner len)
    (span : Span V) : Prop :=
  span.lo ≤ span.hi ∧ ∀ block, span.lo ≤ block → block ≤ span.hi →
    table.readAt decode backend owner block = span.answer

variable {table table' : VersionTable len} {owner : Owner len} {decode : Bytes → V} {h : U64}

theorem Span.Matches.of_agree {span : Span V} (hmatches : span.Matches decode backend table owner)
    (hagree : table.AgreeUpTo backend h table') (hwf : table.WellFormed backend)
    (hwf' : table'.WellFormed backend) (hle : span.hi ≤ h) : span.Matches decode backend table' owner := by
  refine ⟨hmatches.1, fun block hlow hhigh => ?_⟩
  rw [← hmatches.2 block hlow hhigh, readAt, readAt, hagree.find hwf hwf' owner (hhigh.trans hle)]

theorem matches_of_find (decode : Bytes → V) (hwf : table.WellFormed backend) {block hi : U64} (hle : block ≤ hi)
    (hnone : hi = block ∨ ∀ n, (table.find backend owner block).all (fun found => found.1 < n) → n ≤ hi →
      table.row backend (versionKey backend.inverted owner n) = none) :
    ({ readSpan decode (table.find backend owner block) block with hi := hi } : Span V).Matches decode backend
      table owner := by
  have hread := find_readsLatest hwf owner block
  cases hfind : table.find backend owner block with
  | none =>
    rw [hfind] at hread hnone
    refine ⟨zero_le _, fun b _ hb => ?_⟩
    have hb' : table.find backend owner b = none := by
      refine (find_readsLatest hwf owner b).unique ?_
      rcases hnone with rfl | hnone
      · exact hread.restrict_none hb
      · intro m w hm hmb
        have hrow := hnone m rfl (hmb.trans hb)
        simp [hrow] at hm
    rw [readAt, hb']
    rfl
  | some found =>
    obtain ⟨version, raw⟩ := found
    rw [hfind] at hread hnone
    refine ⟨hread.2.1.trans hle, fun b hlow hb => ?_⟩
    have hb' : table.find backend owner b = some (version, raw) := by
      refine (find_readsLatest hwf owner b).unique ?_
      rcases hnone with rfl | hnone
      · exact hread.restrict hlow hb
      · refine (hread.extend hle fun m hm hmhi => ?_).restrict hlow hb
        exact hnone m (by simpa using hm) hmhi
    rw [readAt, hb']
    rfl

/-- No newer version lies between the version read and the bound. -/
theorem newerVersionBound_spec {rows : OrderedMap Bytes Bytes}
    (hwf : (plain rows : VersionTable len).WellFormed (.rocksdb .v2)) (owner : Owner len)
    {version block head : U64} (hblock : block ≤ head) :
    block ≤ (newerVersionBound rows owner version block head).1 ∧
    (newerVersionBound rows owner version block head).1 ≤ head ∧
    ((newerVersionBound rows owner version block head).1 = block ∨
      ∀ n, version < n → n ≤ (newerVersionBound rows owner version block head).1 →
        rows.get (versionKey true owner n) = none) := by
  have hnewer : ∀ {n m : U64}, versionKey true owner n < versionKey true owner m ↔ m < n := by
    intro n m
    rw [← not_le, ← not_le, versionKey_places_desc.le_iff]
  unfold newerVersionBound
  cases hprev : rows.prev (versionKey true owner version) with
  | none =>
    refine ⟨hblock, le_rfl, .inr fun n hn _ => ?_⟩
    cases hget : rows.get (versionKey true owner n) with
    | none => rfl
    | some => exact absurd (hnewer.mpr hn) (OrderedMap.prev_none hprev hget).not_gt
  | some entry =>
    obtain ⟨key, raw⟩ := entry
    obtain ⟨hget, hlt, hgreatest⟩ := OrderedMap.prev_some hprev
    obtain ⟨other, next, rfl⟩ := hwf key raw hget
    by_cases hother : other = owner
    · subst hother
      -- versions above the one read start at `next`
      have hfrom : ∀ n, version < n → rows.get (versionKey true other n) ≠ none → next ≤ n := by
        intro n hn hrow
        obtain ⟨row, hrow⟩ := ne_none_iff_exists'.mp hrow
        exact versionKey_places_desc.le_iff.mp (hgreatest _ row hrow (hnewer.mpr hn))
      have howned : ownedVersion true other (versionKey (Backend.rocksdb .v2).inverted other next) = some next :=
        ownedVersion_self true other next
      simp only [howned]
      split
      · next hbefore =>
        refine ⟨le_max_right .., max_le hbefore hblock, ?_⟩
        rcases le_total ⟨next - 1, by omega⟩ block with hle | hge
        · exact .inl (max_eq_right hle)
        right
        intro n hn hnhi
        rw [max_eq_left hge] at hnhi
        by_contra hrow
        have hnext := hfrom n hn hrow
        simp only [le_def, lt_def] at hn hnhi hnext
        omega
      · next hbefore =>
        refine ⟨hblock, le_rfl, .inr fun n hn hnhi => ?_⟩
        by_contra hrow
        have hnext := hfrom n hn hrow
        simp only [le_def] at hbefore hnhi hnext
        omega
    · have howned : ownedVersion true owner (versionKey (Backend.rocksdb .v2).inverted other next) = none :=
        ownedVersion_of_ne next hother
      simp only [howned]
      refine ⟨hblock, le_rfl, .inr fun n hn _ => ?_⟩
      cases hget' : rows.get (versionKey true owner n) with
      | none => rfl
      | some row =>
        have hbetween := hgreatest _ row hget' (hnewer.mpr hn)
        exact absurd (versionKey_places_desc.between hbetween hlt.le) hother

theorem Span.Matches.extend {span same : Span V} (hspan : span.Matches decode backend table owner)
    (hsame : same.Matches decode backend table owner) (hversion : same.sameVersion span = true) :
    ({ same with hi := max same.hi span.hi } : Span V).Matches decode backend table owner := by
  simp only [Span.sameVersion, Bool.and_eq_true, beq_iff_eq] at hversion
  -- both hold at the version they share
  have hanswer : span.answer = same.answer := by
    rw [← hspan.2 span.lo le_rfl hspan.1, ← hsame.2 same.lo le_rfl hsame.1, hversion.2]
  refine ⟨hsame.1.trans (le_max_left ..), fun block hlow hhigh => ?_⟩
  show _ = same.answer
  rcases le_max_iff.mp hhigh with hhigh | hhigh
  · exact hsame.2 block hlow hhigh
  · rw [← hanswer]
    exact hspan.2 block (hversion.2 ▸ hlow) hhigh
end

end LeafageEvm

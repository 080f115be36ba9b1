import LeafageEvm.StateCache
import LeafageEvm.Runs

/-! Readers of the archive next to the committer. A reader takes its view of the head, creates its
iterators and then reads: it looks its key up in the cache and, on a miss, seeks, may probe for the
next newer version and records what it has learned. Between any two of these steps blocks are appended
and other readers run. Schema v3 has no iterators: each lookup reads the database as it is. -/

namespace LeafageEvm
open StateCache HashMap Option
variable {len : Nat} {V : Type}

/-- Where a read has got to. -/
inductive ReaderStage (len : Nat) (V : Type) where
  | idle
  | missed (owner : Owner len) (cached : Option (Entry V))
  | fetched (owner : Owner len) (cached : Option (Entry V)) (span : Span V)
  | probed (owner : Owner len) (span : Span V) (newer : Option U64) (nextVersionFound : Bool)

/-- A handle at a block with the head it took as its view (none bypasses the cache), the table as its
iterators see it and the read it is at. -/
structure Reader (len : Nat) (V : Type) where
  block : U64
  view : Option U64
  snapshot : Option (VersionTable len)
  stage : ReaderStage len V

/-- One versioned table, the head of the cache, the block written but not yet announced to it, the
entries of the cache and the readers. -/
structure ReaderSystem (len : Nat) (V : Type) where
  schema : ArchiveSchema
  table : VersionTable len
  head : U64
  pending : Option U64
  entries : HashMap (Owner len) (Entry V)
  readers : HashMap Nat (Reader len V)

/-- One step of the committer, of a reader or of the cache. -/
inductive ReaderEvent (len : Nat) where
  | append (number : U64) (writes : List (Owner len × Bytes))
  | advanceHead
  | takeView (id : Nat) (block : U64)
  | createIterators (id : Nat)
  | share (id other : Nat)
  | lookup (id : Nat) (owner : Owner len) (hidden : Bool)
  | seek (id : Nat)
  | probe (id : Nat) (failed : Bool)
  | record (id : Nat) (skipped : Bool)
  | evict (owner : Owner len)

namespace ReaderSystem

/-- A cache just built over a table, at the head the database was opened with. -/
def new (schema : ArchiveSchema) (table : VersionTable len) (head : U64) : ReaderSystem len V where
  schema := schema
  table := table
  head := head
  pending := none
  entries := .empty
  readers := .empty

def backend (system : ReaderSystem len V) : Backend := .rocksdb system.schema

/-- The rows of a block, as its commit writes them. -/
def appendRows (system : ReaderSystem len V) (number : U64) (writes : List (Owner len × Bytes)) :
    VersionTable len :=
  system.table.putAll system.backend (batched (writes.map fun write =>
    (versionKey system.backend.inverted write.1 number, write.2)))

def setStage (system : ReaderSystem len V) (id : Nat) (reader : Reader len V) (stage : ReaderStage len V) :
    ReaderSystem len V :=
  { system with readers := system.readers.insert id { reader with stage := stage } }

/-- What a probe makes of a span that ends at the block read: how far it holds, a version above it,
and whether the next version is what ended it. -/
def probeSpan (system : ReaderSystem len V) (block head : U64) (snapshot : VersionTable len)
    (owner : Owner len) (cached : Option (Entry V)) (span : Span V) (failed : Bool) :
    Span V × Option U64 × Bool :=
  match system.schema with
  | .v1 => (span, none, false)
  | .v2 =>
    if span.found ∧ StateCache.probe cached head block span = .yes ∧ failed = false then
      match snapshot with
      | .plain rows =>
        let bound := newerVersionBound rows owner span.lo block head
        ({ span with hi := bound.1 }, none, bound.2)
      | .stamped _ => (span, none, false)
    else (span, none, false)
  | .v3 =>
    if StateCache.probe cached head block span = .yes then
      match system.table.find system.backend owner head with
      | some (newest, _) =>
        if span.found = false ∨ span.lo < newest then (span, some newest, false)
        else ({ span with hi := head }, none, false)
      | none => ({ span with hi := head }, none, false)
    else (span, none, false)

/-- One step. A step whose reader is not there or not at its turn does nothing. -/
def step (decode : Bytes → V) (system : ReaderSystem len V) : ReaderEvent len → ReaderSystem len V
  | .append number writes =>
    match system.pending with
    | none => { system with table := system.appendRows number writes, pending := some number }
    | some _ => system
  | .advanceHead =>
    match system.pending with
    | some number => { system with head := max system.head number, pending := none }
    | none => system
  | .takeView id block =>
    let view := if block ≤ system.head then some system.head else none
    { system with readers := system.readers.insert id ⟨block, view, none, .idle⟩ }
  | .createIterators id =>
    match system.readers id with
    | some ⟨block, view, none, .idle⟩ =>
      { system with readers := system.readers.insert id ⟨block, view, some system.table, .idle⟩ }
    | _ => system
  | .share id other =>
    match system.readers id with
    | some reader => { system with readers := system.readers.insert other reader }
    | none => system
  | .lookup id owner hidden =>
    match system.readers id with
    | some ⟨block, some head, some snapshot, .idle⟩ =>
      let cached := if hidden then none else system.entries owner
      match cached.bind fun entry => entry.lookup block with
      | some _ => system
      | none => system.setStage id ⟨block, some head, some snapshot, .idle⟩ (.missed owner cached)
    | _ => system
  | .seek id =>
    match system.readers id with
    | some ⟨block, some head, some snapshot, .missed owner cached⟩ =>
      let table := if system.schema = .v3 then system.table else snapshot
      let span := readSpan decode (table.find system.backend owner block) block
      system.setStage id ⟨block, some head, some snapshot, .idle⟩ (.fetched owner cached span)
    | _ => system
  | .probe id failed =>
    match system.readers id with
    | some ⟨block, some head, some snapshot, .fetched owner cached span⟩ =>
      let learned := system.probeSpan block head snapshot owner cached span failed
      system.setStage id ⟨block, some head, some snapshot, .idle⟩
        (.probed owner learned.1 learned.2.1 learned.2.2)
    | _ => system
  | .record id skipped =>
    match system.readers id with
    | some ⟨block, view, snapshot, .probed owner span newer nextVersionFound⟩ =>
      let entry :=
        if system.schema = .v3 then StateCache.recordUdt (system.entries owner) span newer
        else StateCache.record (system.entries owner) span nextVersionFound
      let entries := if skipped then system.entries else system.entries.insert owner entry
      { system with entries := entries }.setStage id ⟨block, view, snapshot, .idle⟩ .idle
    | _ => system
  | .evict owner => { system with entries := system.entries.retain fun key _ => key ≠ owner }

def run (decode : Bytes → V) (system : ReaderSystem len V) (events : List (ReaderEvent len)) :
    ReaderSystem len V :=
  events.foldl (step decode) system

/-- A block that writes versions is above the head of the cache, or nobody has used that head yet. -/
def AppendsAbove (system : ReaderSystem len V) : ReaderEvent len → Prop
  | .append number writes => system.pending = none → writes ≠ [] → system.head < number ∨
      (∀ owner, system.entries owner = none) ∧ ∀ id reader, system.readers id = some reader → reader.view = none
  | _ => True

/-! ### The invariant -/

variable {decode : Bytes → V} {system : ReaderSystem len V} {table : VersionTable len}

/-- What a read has learned so far. -/
def StageSound (decode : Bytes → V) (system : ReaderSystem len V) (block head : U64) : ReaderStage len V → Prop
  | .idle | .missed _ _ => True
  | .fetched owner _ span => span = readSpan decode (system.table.find system.backend owner block) block
  | .probed owner span _ _ => span.hi ≤ head ∧ span.Matches decode system.backend system.table owner

/-- The iterators see the table as it is up to the reader's head, and so does the read. -/
def ReaderSound (decode : Bytes → V) (system : ReaderSystem len V) (reader : Reader len V) : Prop :=
  match reader.view with
  | none => reader.stage = .idle
  | some head => reader.block ≤ head ∧ head ≤ system.head ∧
      (∀ snapshot, reader.snapshot = some snapshot → snapshot.WellFormed system.backend ∧
        snapshot.AgreeUpTo system.backend head system.table) ∧
      system.StageSound decode reader.block head reader.stage

structure Sound (decode : Bytes → V) (system : ReaderSystem len V) : Prop where
  wellFormed : system.table.WellFormed system.backend
  spans : ∀ owner entry, system.entries owner = some entry → ∀ span ∈ entry.spans,
    span.hi ≤ system.head ∧ span.Matches decode system.backend system.table owner
  readers : ∀ id reader, system.readers id = some reader → system.ReaderSound decode reader

theorem sound_new (decode : Bytes → V) {schema : ArchiveSchema}
    (hwf : table.WellFormed (.rocksdb schema)) (head : U64) :
    (new schema table head : ReaderSystem len V).Sound decode where
  wellFormed := hwf
  spans _ _ hentry := nomatch hentry
  readers _ _ hreader := nomatch hreader

/-! ### The committer -/

/-- The rows of a block are at its own height. -/
theorem appendRows_agree (system : ReaderSystem len V) {number : U64} {writes : List (Owner len × Bytes)} {h : U64}
    (hlt : writes ≠ [] → h < number) : system.table.AgreeUpTo system.backend h (system.appendRows number writes) := by
  intro owner n hn
  have hrows : ∀ (owner : Owner len) n,
      system.table.row system.backend (versionKey system.backend.inverted (id owner) n) =
        (system.table.row system.backend (versionKey system.backend.inverted owner n)).map fun row => id (id row) := by
    simp
  have hrow := system.table.row_commit Function.injective_id id id hrows number writes owner n
  simp only [id_eq, List.map_id', map_id'] at hrow
  rw [appendRows, hrow]
  by_cases hnil : writes = []
  · subst hnil
    split <;> simp [empty]
  · rw [if_neg (hn.trans_lt (hlt hnil)).ne, none_or]

theorem StageSound.of_agree {block head : U64} {stage : ReaderStage len V}
    (h : system.StageSound decode block head stage) (hblock : block ≤ head)
    (hagree : system.table.AgreeUpTo system.backend head table) (hwf : system.table.WellFormed system.backend)
    (hwf' : table.WellFormed system.backend) (pending : Option U64) :
    ({ system with table := table, pending := pending } : ReaderSystem len V).StageSound decode block head stage := by
  cases stage with
  | idle => trivial
  | missed => trivial
  | fetched owner =>
    refine Eq.trans h ?_
    rw [hagree.find hwf hwf' owner hblock]
    rfl
  | probed => exact ⟨h.1, h.2.of_agree hagree hwf hwf' h.1⟩

section
variable (writes : List (Owner len × Bytes)) (number : U64)

theorem appendRows_wellFormed (hwf : system.table.WellFormed system.backend) : (system.appendRows number writes).WellFormed system.backend := by
  have hcommit := hwf.commit id id id number writes
  simpa [appendRows] using hcommit

theorem Sound.append (h : system.Sound decode)
    (habove : system.AppendsAbove (.append number writes)) (hidle : system.pending = none) :
    ({ system with table := system.appendRows number writes, pending := some number } :
      ReaderSystem len V).Sound decode := by
  have hwf := appendRows_wellFormed writes number h.wellFormed
  by_cases hlt : writes ≠ [] → system.head < number
  · have hagree := system.appendRows_agree hlt
    refine ⟨hwf, fun owner entry hentry span hspan => ?_, fun id reader hreader => ?_⟩
    · obtain ⟨hhead, hmatches⟩ := h.spans owner entry hentry span hspan
      exact ⟨hhead, hmatches.of_agree hagree h.wellFormed hwf hhead⟩
    · have hsound := h.readers id reader hreader
      unfold ReaderSound at hsound ⊢
      cases hview : reader.view with
      | none =>
        rw [hview] at hsound
        exact hsound
      | some head =>
        rw [hview] at hsound
        obtain ⟨hblock, hhead, hsnapshot, hstage⟩ := hsound
        have hbelow : system.table.AgreeUpTo system.backend head (system.appendRows number writes) :=
          fun owner n hn => hagree owner n (hn.trans hhead)
        refine ⟨hblock, hhead, fun snapshot hsome => ?_, hstage.of_agree hblock hbelow h.wellFormed hwf (some number)⟩
        obtain ⟨hsnapwf, hsnapagree⟩ := hsnapshot snapshot hsome
        exact ⟨hsnapwf, fun owner n hn => (hsnapagree owner n hn).trans (hbelow owner n hn)⟩
  · -- nothing was read under the head yet
    push Not at hlt
    rcases habove hidle hlt.1 with hlt' | ⟨hentries, hreaders⟩
    · exact absurd hlt' hlt.2.not_gt
    refine ⟨hwf, fun owner entry hentry => ?_, fun id reader hreader => ?_⟩
    · exact absurd (hentries owner) (by rw [show system.entries owner = some entry from hentry]; simp)
    · have hsound := h.readers id reader hreader
      unfold ReaderSound at hsound ⊢
      rw [hreaders id reader hreader] at hsound ⊢
      exact hsound
end

theorem Sound.advanceHead (h : system.Sound decode) (number : U64) :
    ({ system with head := max system.head number, pending := none } : ReaderSystem len V).Sound decode where
  wellFormed := h.wellFormed
  spans owner entry hentry span hspan := by
    obtain ⟨hhead, hmatches⟩ := h.spans owner entry hentry span hspan
    exact ⟨hhead.trans (le_max_left ..), hmatches⟩
  readers id reader hreader := by
    have hsound := h.readers id reader hreader
    unfold ReaderSound at hsound ⊢
    cases hview : reader.view with
    | none =>
      rw [hview] at hsound
      exact hsound
    | some =>
      rw [hview] at hsound
      obtain ⟨hblock, hhead, hsnapshot, hstage⟩ := hsound
      refine ⟨hblock, hhead.trans (le_max_left ..), hsnapshot, ?_⟩
      revert hstage
      cases reader.stage <;> exact fun hstage => hstage

/-! ### The readers -/

section
variable (h : system.Sound decode) {snapshot : VersionTable len} {owner : Owner len} {span : Span V} (id : Nat)
include h
theorem Sound.insertReader {reader : Reader len V} (hreader : system.ReaderSound decode reader) :
    ({ system with readers := system.readers.insert id reader } : ReaderSystem len V).Sound decode where
  wellFormed := h.wellFormed
  spans := h.spans
  readers id' reader' hreader' := by
    rcases insert_eq_some.mp hreader' with ⟨-, rfl⟩ | ⟨-, hold⟩
    · exact hreader
    · exact h.readers id' reader' hold

/-- A read goes on from what its reader had. -/
theorem Sound.setStage {id : Nat} {block head : U64} {stage stage' : ReaderStage len V}
    (hreader : system.readers id = some ⟨block, some head, some snapshot, stage⟩)
    (hstage : system.StageSound decode block head stage') :
    (system.setStage id ⟨block, some head, some snapshot, .idle⟩ stage').Sound decode := by
  obtain ⟨hblock, hhead, hsnapshot, -⟩ := h.readers id _ hreader
  exact h.insertReader id ⟨hblock, hhead, hsnapshot, hstage⟩

theorem Sound.takeView (block : U64) : (system.step decode (.takeView id block)).Sound decode := by
  apply h.insertReader
  by_cases hle : block ≤ system.head
  · simp only [if_pos hle]
    exact ⟨hle, le_rfl, nofun, trivial⟩
  · simp only [if_neg hle, ReaderSound]

theorem Sound.createIterators : (system.step decode (.createIterators id)).Sound decode := by
  simp only [step]
  split
  · next _ view hreader =>
    apply h.insertReader
    have hsound := h.readers id _ hreader
    cases view with
    | none => exact hsound
    | some =>
      obtain ⟨hblock, hhead, -, hstage⟩ := hsound
      refine ⟨hblock, hhead, fun _ hsome => ?_, hstage⟩
      cases hsome
      exact ⟨h.wellFormed, fun _ _ _ => rfl⟩
  · exact h

theorem Sound.share (other : Nat) : (system.step decode (.share id other)).Sound decode := by
  simp only [step]
  split
  · next reader hreader => exact h.insertReader other (h.readers id reader hreader)
  · exact h

theorem Sound.lookup (owner : Owner len) (hidden : Bool) :
    (system.step decode (.lookup id owner hidden)).Sound decode := by
  simp only [step]
  split
  · next _ _ _ hreader =>
    split
    · exact h
    · exact h.setStage hreader trivial
  · exact h

/-- A seek reads what the table holds at the block, through the iterators or not. -/
theorem Sound.seek : (system.step decode (.seek id)).Sound decode := by
  simp only [step]
  split
  · next block _ snapshot owner _ hreader =>
    refine h.setStage hreader ?_
    obtain ⟨hblock, -, hsnapshot, -⟩ := h.readers id _ hreader
    obtain ⟨hwf, hagree⟩ := hsnapshot snapshot rfl
    show readSpan decode _ block = readSpan decode _ block
    split
    · rfl
    · rw [hagree.find hwf h.wellFormed owner hblock]
  · exact h

theorem Sound.extended {block head hi : U64} (hspan : span = readSpan decode (system.table.find system.backend owner block) block)
    (hlow : block ≤ hi) (hhigh : hi ≤ head) (hnone : hi = block ∨ ∀ n, (span.found = true → span.lo < n) → n ≤ hi →
      system.table.row system.backend (versionKey system.backend.inverted owner n) = none) :
    ({ span with hi := hi } : Span V).hi ≤ head ∧
      ({ span with hi := hi } : Span V).Matches decode system.backend system.table owner := by
  refine ⟨hhigh, ?_⟩
  subst hspan
  refine matches_of_find decode h.wellFormed hlow (hnone.imp_right fun hnone n hn hnhi => ?_)
  refine hnone n (fun hfound => ?_) hnhi
  cases hfind : system.table.find system.backend owner block with
  | none => simp [hfind, readSpan] at hfound
  | some => simpa [hfind, readSpan] using hn

/-- What a probe learns holds: the span ends below the reader's head and matches the archive. -/
theorem Sound.probeSpan {block head : U64} (hblock : block ≤ head)
    (hwf : snapshot.WellFormed system.backend) (hagree : snapshot.AgreeUpTo system.backend head system.table)
    (hspan : span = readSpan decode (system.table.find system.backend owner block) block)
    (cached : Option (Entry V)) (failed : Bool) :
    (system.probeSpan block head snapshot owner cached span failed).1.hi ≤ head ∧
      (system.probeSpan block head snapshot owner cached span failed).1.Matches decode system.backend
        system.table owner := by
  -- a span that is not extended ends at the block read
  have hplain : span.hi ≤ head ∧ span.Matches decode system.backend system.table owner := by
    rw [hspan]
    exact ⟨hblock, matches_of_find decode h.wellFormed le_rfl (.inl rfl)⟩
  unfold ReaderSystem.probeSpan
  split
  · exact hplain
  · next hschema =>
    split
    · next hprobes =>
      split
      · next _ =>
        have hbackend : system.backend = .rocksdb .v2 := by rw [backend, hschema]
        rw [hbackend] at hwf
        obtain ⟨hlow, hhigh, hnone⟩ := newerVersionBound_spec hwf owner hblock
        refine h.extended hspan hlow hhigh (hnone.imp_right fun hnone n hn hnhi => ?_)
        rw [← hagree owner n (hnhi.trans hhigh), hbackend]
        exact hnone n (hn hprobes.1) hnhi
      · exact hplain
    · exact hplain
  · have hlatest := VersionTable.find_readsLatest h.wellFormed owner head
    split
    · split
      · next newest _ hfind =>
        rw [hfind] at hlatest
        split
        · exact hplain
        · next hnewest =>
          push Not at hnewest
          refine h.extended hspan hblock le_rfl (.inr fun n hn hnhi => ?_)
          -- the newest version up to the head is the one read
          by_contra hrow
          obtain ⟨row, hrow⟩ := ne_none_iff_exists'.mp hrow
          have hle := (hlatest.2.2 n row hrow hnhi).trans hnewest.2
          exact absurd (hn (Bool.eq_true_of_not_eq_false hnewest.1)) hle.not_gt
      · next hfind =>
        rw [hfind] at hlatest
        refine h.extended hspan hblock le_rfl (.inr fun n _ hnhi => ?_)
        by_contra hrow
        obtain ⟨row, hrow⟩ := ne_none_iff_exists'.mp hrow
        exact hlatest n row hrow hnhi
    · exact hplain

theorem Sound.probe (failed : Bool) : (system.step decode (.probe id failed)).Sound decode := by
  simp only [step]
  split
  · next _ _ snapshot _ cached _ hreader =>
    obtain ⟨hblock, -, hsnapshot, hspan⟩ := h.readers id _ hreader
    obtain ⟨hwf, hagree⟩ := hsnapshot snapshot rfl
    exact h.setStage hreader (h.probeSpan hblock hwf hagree hspan cached failed)
  · exact h

theorem Sound.merged (hspan : span.hi ≤ system.head ∧ span.Matches decode system.backend system.table owner) (short : Bool) (newest : U64) :
    ∀ span' ∈ (merge (system.entries owner) span short newest).spans,
      span'.hi ≤ system.head ∧ span'.Matches decode system.backend system.table owner := by
  refine forall_mem_merge short newest (h.spans owner) hspan ?_
  rintro _ ⟨hhead, hmatches⟩ hversion
  exact ⟨max_le hhead hspan.1, hspan.2.extend hmatches hversion⟩

theorem Sound.insertEntry {entry : Entry V} (hentry : ∀ span ∈ entry.spans,
      span.hi ≤ system.head ∧ span.Matches decode system.backend system.table owner) :
    ({ system with entries := system.entries.insert owner entry } : ReaderSystem len V).Sound decode where
  wellFormed := h.wellFormed
  spans owner' entry' hentry' := by
    rcases insert_eq_some.mp hentry' with ⟨rfl, rfl⟩ | ⟨-, hold⟩
    · exact hentry
    · exact h.spans owner' entry' hold
  readers := h.readers

theorem Sound.record (skipped : Bool) : (system.step decode (.record id skipped)).Sound decode := by
  simp only [step]
  split
  · next _ view _ owner span _ _ hreader =>
    have hsound := h.readers id _ hreader
    cases view with
    | none => cases hsound
    | some head =>
      obtain ⟨hblock, hhead, hsnapshot, hspan⟩ := hsound
      have hmatches := And.intro (hspan.1.trans hhead) hspan.2
      have hentries : ∀ entry, (∀ span ∈ entry.spans,
          span.hi ≤ system.head ∧ span.Matches decode system.backend system.table owner) →
          ({ system with entries := if skipped then system.entries else system.entries.insert owner entry } :
            ReaderSystem len V).Sound decode := by
        intro _ hentry
        cases skipped with
        | true => exact h
        | false => exact h.insertEntry hentry
      refine Sound.insertReader ?_ id ⟨hblock, hhead, hsnapshot, trivial⟩
      apply hentries
      split <;> exact h.merged hmatches _ _
  · exact h

theorem Sound.evict (owner : Owner len) : (system.step decode (.evict owner)).Sound decode where
  wellFormed := h.wellFormed
  spans owner' entry hentry := by
    have hkept : (system.entries.retain fun key _ => key ≠ owner) owner' = some entry := hentry
    exact h.spans owner' entry (retain_eq_some.mp hkept).1
  readers := h.readers

theorem Sound.step (event : ReaderEvent len) (habove : system.AppendsAbove event) :
    (system.step decode event).Sound decode := by
  cases event with
  | append number writes =>
    simp only [ReaderSystem.step]
    split
    · next hidle => exact h.append writes number habove hidle
    · exact h
  | advanceHead =>
    simp only [ReaderSystem.step]
    split
    · next number _ => exact h.advanceHead number
    · exact h
  | takeView id block => exact h.takeView id block
  | createIterators id => exact h.createIterators id
  | share id other => exact h.share id other
  | lookup id owner hidden => exact h.lookup id owner hidden
  | seek id => exact h.seek id
  | probe id failed => exact h.probe id failed
  | record id skipped => exact h.record id skipped
  | evict owner => exact h.evict owner
end

/-- **The cache of archive reads is sound**, in every run whose appends go above the head of the cache:
a span has, at every block it covers, the value and the version block of the archive, so a hit
returns what the uncached read returns. -/
theorem spans_match (decode : Bytes → V) (schema : ArchiveSchema) {table : VersionTable len}
    (hwf : table.WellFormed (.rocksdb schema)) (head : U64) (events : List (ReaderEvent len))
    (hmeets : RunMeets (step decode) AppendsAbove (new schema table head) events) :
    let system := (new schema table head).run decode events
    ∀ owner entry, system.entries owner = some entry →
      (∀ span ∈ entry.spans, ∀ block, span.covers block = true →
        system.table.readAt decode system.backend owner block = span.answer) ∧
      ∀ block span, entry.lookup block = some span →
        system.table.readAt decode system.backend owner block = span.answer := by
  intro system owner entry hentry
  have hsound : system.Sound decode :=
    run_invariant (Sound decode) (fun _ event h habove => h.step event habove) (sound_new decode hwf head) hmeets
  have hspans : ∀ span ∈ entry.spans, ∀ block, span.covers block = true →
      system.table.readAt decode system.backend owner block = span.answer := by
    intro span hspan block hcovers
    simp only [Span.covers, Bool.and_eq_true, decide_eq_true_eq] at hcovers
    exact (hsound.spans owner entry hentry span hspan).2.2 block hcovers.1 hcovers.2
  refine ⟨hspans, fun block span hlookup => ?_⟩
  have hfind : entry.spans.find? (fun span => span.covers block) = some span := hlookup
  have hcovers := List.find?_some hfind
  exact hspans span (List.mem_of_find?_eq_some hlookup) block hcovers

def readSlot (id : Nat) (block : U64) : List (ReaderEvent 64) :=
  [.takeView id block, .createIterators id, .lookup id (slotOwner 7 3) false, .seek id, .probe id false,
    .record id false]

/-- A slot read at block 1 and written again at block 2. -/
def appendAfterRead : List (ReaderEvent 64) :=
  [.append 1 [(slotOwner 7 3, toBE 32 5)], .advanceHead] ++ readSlot 0 1 ++
    [.append 2 [(slotOwner 7 3, toBE 32 6)], .advanceHead]

theorem spans_match_appended :
    let system := (new .v2 (.empty (.rocksdb .v2)) 0).run decodeStorage appendAfterRead
    (system.entries (slotOwner 7 3)).bind (fun entry => entry.lookup 1) = some ⟨1, 1, true, 5⟩ ∧
      system.table.readAt decodeStorage system.backend (slotOwner 7 3) 1 = (5, some 1) := by
  intro system
  have hlookup : (system.entries (slotOwner 7 3)).bind (fun entry => entry.lookup 1) =
      some ⟨1, 1, true, 5⟩ := by
    decide +kernel
  have hmeets : RunMeets (step decodeStorage) AppendsAbove (new .v2 (.empty (.rocksdb .v2)) 0) appendAfterRead := by
    refine ⟨fun _ _ => .inl (by decide), trivial, trivial, trivial, trivial, trivial, trivial, trivial,
      fun _ _ => .inl (by decide), trivial, trivial⟩
  refine ⟨hlookup, ?_⟩
  obtain ⟨entry, hentry, hspan⟩ := bind_eq_some_iff.mp hlookup
  exact (spans_match decodeStorage .v2 VersionTable.wellFormed_empty 0 appendAfterRead hmeets
    (slotOwner 7 3) entry hentry).2 1 _ hspan

/-- On an empty archive the head of the cache is that of an archive at block 0. A reader at block 0
finds the slot unwritten and records it; block 0 then writes the slot, and the cache still says that
it was never written. -/
theorem span_of_empty_archive_goes_stale :
    let system := (new .v2 (.empty (.rocksdb .v2)) 0).run decodeStorage
      (readSlot 0 0 ++ [.append 0 [(slotOwner 7 3, toBE 32 5)], .advanceHead])
    (system.entries (slotOwner 7 3)).bind (fun entry => entry.lookup 0) = some ⟨0, 0, false, 0⟩ ∧
      system.table.readAt decodeStorage system.backend (slotOwner 7 3) 0 = (5, some 0) := by
  decide +kernel

end ReaderSystem
end LeafageEvm

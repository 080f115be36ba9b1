import LeafageEvm.OrderedMap

/-! Table files for bulk loading. A sink appends rows to the open file, whose writer refuses a row that
does not come after the last one, and finishes a file when it is told to or when it is full; whether it is
full is the writer's business, here a test on its rows. A column family takes the files in with
`ingest_external_file`, where of two rows with one key the later file's wins. -/

namespace LeafageEvm
open List

inductive SstError where
  | outOfOrder
  | unsupported
  deriving DecidableEq

/-- `SstSink`: the finished files and the rows of the open one. A file is opened for the row that is then
appended to it, so an open file without rows does not show. -/
structure SstSink (K V : Type) where
  files : List (List (K × V)) := []
  writer : List (K × V) := []

namespace SstSink

section Files
variable {K V : Type} (full : List (K × V) → Bool)

def finishFile (sink : SstSink K V) : SstSink K V :=
  if sink.writer.isEmpty then sink else ⟨sink.files ++ [sink.writer], []⟩

def rollIfFull (full : List (K × V) → Bool) (sink : SstSink K V) : SstSink K V :=
  if full sink.writer then sink.finishFile else sink

def finish (sink : SstSink K V) : List (List (K × V)) := sink.finishFile.files

/-- The rows written so far, in the order of the files. -/
def rows (sink : SstSink K V) : List (K × V) := sink.files.flatten ++ sink.writer

section
variable (sink : SstSink K V)

theorem finishFile_cases : sink.writer = [] ∧ sink.finishFile = sink ∨
      sink.writer ≠ [] ∧ sink.finishFile = ⟨sink.files ++ [sink.writer], []⟩ := by
  rw [finishFile]
  cases sink.writer with
  | nil => exact .inl ⟨rfl, rfl⟩
  | cons => exact .inr ⟨cons_ne_nil _ _, rfl⟩

theorem writer_finishFile : sink.finishFile.writer = [] := by
  rcases sink.finishFile_cases with ⟨hnil, heq⟩ | ⟨-, heq⟩
  · rw [heq, hnil]
  · rw [heq]

theorem rows_finishFile : sink.finishFile.rows = sink.rows := by
  rcases sink.finishFile_cases with ⟨-, heq⟩ | ⟨-, heq⟩
  · rw [heq]
  · rw [heq, rows, rows, flatten_append, flatten_singleton, append_nil]

theorem rollIfFull_cases : sink.rollIfFull full = sink ∨ sink.rollIfFull full = sink.finishFile := by
  rw [rollIfFull]
  split
  · exact .inr rfl
  · exact .inl rfl

theorem rows_rollIfFull : (sink.rollIfFull full).rows = sink.rows := by
  rcases sink.rollIfFull_cases full with heq | heq
  · rw [heq]
  · rw [heq, rows_finishFile]

/-- The files in the end hold the rows written. -/
theorem flatten_finish : sink.finish.flatten = sink.rows := by
  have hrows := sink.rows_finishFile
  rwa [rows, sink.writer_finishFile, append_nil] at hrows
end

end Files

variable {K V : Type} [LinearOrder K]

/-- Append a row to the open file: `SstFileWriter::put` and `put_with_ts`. -/
def append (sink : SstSink K V) (row : K × V) : Except SstError (SstSink K V) :=
  if sink.writer.getLast?.all fun last => last.1 < row.1 then .ok { sink with writer := sink.writer ++ [row] }
  else .error .outOfOrder

/-- `put`: append, and finish a file that is full. -/
def put (full : List (K × V) → Bool) (sink : SstSink K V) (row : K × V) : Except SstError (SstSink K V) :=
  (sink.append row).map (rollIfFull full)

def putAll (full : List (K × V) → Bool) (sink : SstSink K V) (rows : List (K × V)) : Except SstError (SstSink K V) :=
  rows.foldlM (put full) sink

/-- The files of a table copied as it is. -/
def copyColumn (full : List (K × V) → Bool) (rows : OrderedMap K V) : Except SstError (List (List (K × V))) :=
  (putAll full {} rows.entries).map finish

/-- No file is empty, and every file is in key order. -/
structure Filed (sink : SstSink K V) : Prop where
  files : ∀ file ∈ sink.files, file ≠ [] ∧ file.Pairwise fun a b => a.1 < b.1
  writer : sink.writer.Pairwise fun a b => a.1 < b.1

variable {sink : SstSink K V} {row : K × V} (full : List (K × V) → Bool)

theorem filed_empty : ({} : SstSink K V).Filed := ⟨nofun, .nil⟩

/-- A row after all of the open file's is taken. -/
theorem append_ok (h : ∀ other ∈ sink.writer, other.1 < row.1) :
    sink.append row = .ok { sink with writer := sink.writer ++ [row] } := by
  rw [append, if_pos]
  cases hlast : sink.writer.getLast? with
  | none => rfl
  | some last => exact decide_eq_true (h last (mem_of_getLast? hlast))

section
variable (h : sink.Filed)
include h
theorem Filed.append (hlt : ∀ other ∈ sink.writer, other.1 < row.1) :
    Filed { sink with writer := sink.writer ++ [row] } where
  files := h.files
  writer := by
    refine pairwise_append.mpr ⟨h.writer, pairwise_singleton .., fun a ha b hb => ?_⟩
    rw [mem_singleton.mp hb]
    exact hlt a ha

theorem Filed.finishFile : sink.finishFile.Filed := by
  rcases sink.finishFile_cases with ⟨-, heq⟩ | ⟨hne, heq⟩
  · rwa [heq]
  rw [heq]
  refine ⟨fun file hfile => ?_, .nil⟩
  rcases mem_append.mp hfile with hold | hnew
  · exact h.files file hold
  · rw [mem_singleton.mp hnew]
    exact ⟨hne, h.writer⟩

theorem Filed.rollIfFull (full : List (K × V) → Bool) : (sink.rollIfFull full).Filed := by
  rcases sink.rollIfFull_cases full with heq | heq
  · rwa [heq]
  · rw [heq]
    exact h.finishFile

theorem putAll_ok {rows : List (K × V)} (hrows : rows.Pairwise fun a b => a.1 < b.1)
    (hafter : ∀ a ∈ sink.writer, ∀ b ∈ rows, a.1 < b.1) :
    ∃ sink', sink.putAll full rows = .ok sink' ∧ sink'.Filed ∧ sink'.rows = sink.rows ++ rows ∧
      ∀ a ∈ sink'.writer, a ∈ sink.writer ∨ a ∈ rows := by
  induction rows generalizing sink with
  | nil => exact ⟨_, rfl, h, (append_nil _).symm, fun a ha => .inl ha⟩
  | cons row rows ih =>
    obtain ⟨hfirst, hrest⟩ := pairwise_cons.mp hrows
    have hlt : ∀ other ∈ sink.writer, other.1 < row.1 := fun other hother => hafter other hother row (.head _)
    have hput : sink.put full row = .ok (rollIfFull full { sink with writer := sink.writer ++ [row] }) := by
      rw [put, append_ok hlt]
      rfl
    have hwriter : ∀ a ∈ (rollIfFull full { sink with writer := sink.writer ++ [row] }).writer,
        a ∈ sink.writer ∨ a = row := by
      intro a ha
      rcases rollIfFull_cases full { sink with writer := sink.writer ++ [row] } with heq | heq
      · rw [heq] at ha
        exact (mem_append.mp ha).imp_right mem_singleton.mp
      · rw [heq, writer_finishFile] at ha
        cases ha
    obtain ⟨sink', hok, hfiled, hwritten, hopen⟩ := ih ((h.append hlt).rollIfFull full) hrest (by
      intro a ha b hb
      rcases hwriter a ha with hold | rfl
      · exact hafter a hold b (.tail _ hb)
      · exact hfirst b hb)
    refine ⟨sink', ?_, hfiled, ?_, fun a ha => ?_⟩
    · rw [putAll, foldlM_cons, hput]
      exact hok
    · rw [hwritten, rows_rollIfFull]
      simp only [SstSink.rows, append_assoc, singleton_append]
    · rcases hopen a ha with hold | hnew
      · rcases hwriter a hold with hold | rfl
        · exact .inl hold
        · exact .inr (.head _)
      · exact .inr (.tail _ hnew)
end

theorem copyColumn_ok (rows : OrderedMap K V) :
    ∃ files, copyColumn full rows = .ok files ∧ files.flatten = rows.entries := by
  obtain ⟨sink, hok, -, hrows, -⟩ := putAll_ok full filed_empty rows.sorted nofun
  refine ⟨sink.finish, ?_, ?_⟩
  · rw [copyColumn, hok]
    rfl
  · rw [flatten_finish, hrows]
    rfl

end SstSink

/-! ### Ingestion -/

namespace OrderedMap

variable {K V : Type} [LinearOrder K] {m : OrderedMap K V} {entry : K × V} {files : List (List (K × V))}

/-- `ingest_external_file` for files in this order. -/
def ingest (m : OrderedMap K V) (files : List (List (K × V))) : OrderedMap K V :=
  files.foldl (fun m file => file.foldl (fun m row => m.put row.1 row.2) m) m

theorem ingest_eq (m : OrderedMap K V) (files : List (List (K × V))) :
    m.ingest files = files.flatten.foldl (fun m row => m.put row.1 row.2) m := by
  rw [ingest, foldl_flatten]

theorem mem_foldl_put {rows : List (K × V)} (hdistinct : (rows.map (·.1)).Nodup)
    (hfresh : ∀ entry ∈ m.entries, ∀ row ∈ rows, entry.1 ≠ row.1) :
    entry ∈ (rows.foldl (fun m row => m.put row.1 row.2) m).entries ↔ entry ∈ m.entries ∨ entry ∈ rows := by
  induction rows generalizing m with
  | nil => simp
  | cons row _ ih =>
    obtain ⟨hother, hrest⟩ := nodup_cons.mp hdistinct
    have hkeep : ∀ entry ∈ m.entries, entry.1 ≠ row.1 := fun entry hentry => hfresh entry hentry row (.head _)
    have hmem : ∀ entry, entry ∈ (m.put row.1 row.2).entries ↔ entry = row ∨ entry ∈ m.entries := by
      intro entry
      rw [mem_put]
      exact or_congr_right (and_iff_left_of_imp (hkeep entry))
    rw [foldl_cons, ih hrest, hmem, mem_cons]
    · tauto
    · intro entry hentry row' hrow'
      rcases (hmem entry).mp hentry with rfl | hold
      · exact fun heq => hother (mem_map.mpr ⟨row', hrow', heq.symm⟩)
      · exact hfresh entry hold row' (.tail _ hrow')

/-- Files that share no key are all found again. -/
theorem mem_ingest_empty (hdistinct : (files.flatten.map (·.1)).Nodup) :
    entry ∈ ((empty : OrderedMap K V).ingest files).entries ↔ entry ∈ files.flatten := by
  rw [ingest_eq, mem_foldl_put hdistinct fun _ h => absurd h not_mem_nil]
  exact or_iff_right not_mem_nil

theorem get_ingest_empty (hdistinct : (files.flatten.map (·.1)).Nodup) {k : K} {v : V} :
    ((empty : OrderedMap K V).ingest files).get k = some v ↔ (k, v) ∈ files.flatten := by
  rw [get_eq_some, mem_ingest_empty hdistinct]

theorem ingest_of_flatten (hfiles : files.flatten = m.entries)
    (k : K) : ((empty : OrderedMap K V).ingest files).get k = m.get k := by
  have hdistinct : (files.flatten.map (·.1)).Nodup := by
    rw [hfiles]
    exact pairwise_map.mpr (m.sorted.imp (·.ne))
  apply Option.ext
  intro v
  rw [get_ingest_empty hdistinct, hfiles, get_eq_some]

/-- Files that are the parts of a table share no key. -/
theorem pairwise_of_flatten (hfiles : files.flatten = m.entries) :
    files.Pairwise fun file file' => ∀ a ∈ file, ∀ b ∈ file', a.1 ≠ b.1 := by
  have hsorted := m.sorted
  rw [← hfiles] at hsorted
  exact (pairwise_flatten.mp hsorted).2.imp fun hlt a ha b hb => (hlt a ha b hb).ne

end OrderedMap
end LeafageEvm

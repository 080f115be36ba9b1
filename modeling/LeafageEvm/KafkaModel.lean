import LeafageEvm.TreeHead

/-! The updater that follows a Kafka topic. A batch of messages is read, the blocks they announce are
fetched and handed to the tree one by one, and then the offset from which a restart is to read is
written: the one after the message that brought the block the database stands at. A batch that fails
is tried again until it succeeds. -/

namespace LeafageEvm

/-- The topic: the blocks that the message at each offset announces. A message may announce none. -/
abbrev KafkaLog := Nat → List H256

structure KafkaMessage where
  offset : Nat
  newBlocks : List H256
  deriving DecidableEq

structure BlockContextWithOffset where
  block : Block
  offset : Nat
  deriving DecidableEq

structure KafkaConfig where
  tree : StateTreeConfig := {}
  clears : Bool := false
  maxDiffDepth : Nat := 64
  bundles : Bool := false

/-- Where the updater's loop is. `failed` is the branch for a batch that could not be applied, and
`stopped` what a panic leaves of the task. -/
inductive KafkaPhase where
  | polling
  | catchingUp (messages : List KafkaMessage)
  | preparing (messages : List KafkaMessage)
  | applying (messages : List KafkaMessage) (updatePath : List Block)
  | committing (messages : List KafkaMessage)
  | failed (messages : List KafkaMessage)
  | stopped
  deriving DecidableEq

/-- The batch in progress. -/
def KafkaPhase.messages : KafkaPhase → List KafkaMessage
  | .polling => []
  | .catchingUp messages => messages
  | .preparing messages => messages
  | .applying messages _ => messages
  | .committing messages => messages
  | .failed messages => messages
  | .stopped => []

/-- The updater with the tree, the database under it and the offset file. -/
structure KafkaUpdater where
  tree : StateTree
  hashToBlockctx : HashMap H256 BlockContextWithOffset
  offsetFile : Option Nat
  position : Nat
  readFromKafka : Bool
  phase : KafkaPhase

/-- How `commit_offset` goes: the block committed last may not be readable, the file not writable. -/
inductive CommitFault where
  | none
  | unreadable
  | unwritable
  deriving DecidableEq

/-- What happens to an updater. Fetches and the database can fail at any time. A crash can come in the
middle of a call of `update_block`, after some of its writes; `latest` is the newest offset of the topic
at the restart. -/
inductive KafkaEvent where
  | poll (n : Nat)
  | catchUp (hash : H256)
  | caughtUp
  | prepare (fetched : Bool)
  | apply (usable : Bool)
  | commit (fault : CommitFault)
  | crash (during : Option (H256 × Nat)) (latest : Nat)
  deriving DecidableEq

namespace KafkaUpdater

variable (source : BlockSource) (updater : KafkaUpdater) (messages : List KafkaMessage)

/-- `clear`: drop the block committed last and those below it. -/
def clear (persisted : BlockInfo) : KafkaUpdater :=
  { updater with
    hashToBlockctx := HashMap.retain updater.hashToBlockctx fun hash context =>
      hash ≠ persisted.hash && persisted.number ≤ context.block.info.number }

/-- `commit_offset`, with whether it succeeds. -/
def commitOffset (fault : CommitFault) : Bool × KafkaUpdater :=
  if fault = .unreadable then (false, updater)
  else
    let persisted := updater.tree.db.latest
    let cleared := updater.clear persisted
    match updater.hashToBlockctx persisted.hash with
    | none => (true, cleared)
    | some context =>
      if fault = .unwritable then (false, cleared)
      else (true, { cleared with offsetFile := some (context.offset + 1) })

def newBlocks : List (H256 × Nat) :=
  messages.flatMap fun message => message.newBlocks.map fun hash => (hash, message.offset)

/-- `prepare_update`: a block announced again takes the later offset. -/
def prepareUpdate : KafkaUpdater :=
  { updater with
    hashToBlockctx := (newBlocks messages).foldl
      (fun contexts announced => HashMap.insert contexts announced.1 ⟨source.block announced.1, announced.2⟩)
      updater.hashToBlockctx }

/-- The blocks to apply, as looked up after the preparation. -/
def updatePath : List Block :=
  (newBlocks messages).filterMap fun announced => (updater.hashToBlockctx announced.1).map (·.block)

/-- `init_offset`. The topic keeps its messages, so an offset that was written can still be read. -/
def start (config : KafkaConfig) (db : DiskState) (offsetFile : Option Nat) (latest : Nat) : KafkaUpdater :=
  let resume := if config.bundles then none else offsetFile
  { tree := .new config.tree config.clears db
    hashToBlockctx := HashMap.empty
    offsetFile := offsetFile
    position := resume.getD latest
    readFromKafka := resume.isSome
    phase := .polling }

/-- The block that a call of `update_block` may be under way for. -/
def inFlight (hash : H256) : Option Block :=
  match updater.phase with
  | .catchingUp _ => some (source.block hash)
  | .applying _ (block :: _) => some block
  | _ => none

/-- The database that a crash leaves. -/
def crashDb (during : Option (H256 × Nat)) : DiskState :=
  let state := during.bind fun (hash, writes) =>
    (updater.inFlight source hash).bind fun block => (updater.tree.updateStates block)[writes]?
  (state.getD updater.tree).db

/-- One call of `update_block` of the loop, which goes on as `next` says. -/
def applyBlock (block : Block) (next failed : KafkaPhase) : KafkaUpdater :=
  match updater.tree.updateBlock block with
  | (.ok, tree) => { updater with tree := tree, phase := next }
  | (.error _, tree) => { updater with tree := tree, phase := failed }
  | (.panic, tree) => { updater with tree := tree, phase := .stopped }

/-- The loop of `start`. An event that does not fit the place the loop is at changes nothing. -/
def step (config : KafkaConfig) (source : BlockSource) (log : KafkaLog) (updater : KafkaUpdater) :
    KafkaEvent → KafkaUpdater
  | .poll n =>
    match updater.phase with
    | .polling =>
      if 0 < n ∧ n ≤ max 1 config.maxDiffDepth then
        let messages := (List.range' updater.position n).map fun offset => ⟨offset, log offset⟩
        { updater with
          position := updater.position + n
          phase := if updater.readFromKafka then .preparing messages else .catchingUp messages }
      else updater
    | _ => updater
  | .catchUp hash =>
    match updater.phase with
    | .catchingUp messages => updater.applyBlock (source.block hash) (.catchingUp messages) (.catchingUp messages)
    | _ => updater
  | .caughtUp =>
    match updater.phase with
    | .catchingUp messages => { updater with readFromKafka := true, phase := .preparing messages }
    | _ => updater
  | .prepare fetched =>
    match updater.phase with
    | .preparing messages =>
      if fetched then
        let prepared := updater.prepareUpdate source messages
        { prepared with phase := .applying messages (prepared.updatePath messages) }
      else { updater with phase := .failed messages }
    | _ => updater
  | .apply usable =>
    match updater.phase with
    | .applying messages [] => { updater with phase := .committing messages }
    | .applying messages (block :: rest) =>
      if usable then updater.applyBlock block (.applying messages rest) (.failed messages)
      else { updater with phase := .failed messages }
    | _ => updater
  | .commit fault =>
    match updater.phase with
    | .committing messages =>
      let (ok, updater) := updater.commitOffset fault
      { updater with phase := if ok then .polling else .failed messages }
    | .failed messages =>
      let (ok, updater) := updater.commitOffset fault
      { updater with phase := if ok then .preparing messages else .stopped }
    | _ => updater
  | .crash during latest => start config (updater.crashDb source during) updater.offsetFile latest

end KafkaUpdater
end LeafageEvm

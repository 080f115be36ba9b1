import LeafageEvm.Arbitrum.FeeSettlement
import LeafageEvm.Arbitrum.RetryableSubmit
import LeafageEvm.ArchiveFlush
import LeafageEvm.ArchiveReaders
import LeafageEvm.ArchiveReencode
import LeafageEvm.ArchiveUdt
import LeafageEvm.BlockIndexFile
import LeafageEvm.BlockInfoCopy
import LeafageEvm.CacheStable
import LeafageEvm.Cas20.StorageGas
import LeafageEvm.HttpProgress
import LeafageEvm.HybridReads
import LeafageEvm.KafkaRedelivery
import LeafageEvm.Migrate
import LeafageEvm.Monad.StakingRefcounts
import LeafageEvm.MulticallPool
import LeafageEvm.ReplayDiff
import LeafageEvm.RetryWindow
import LeafageEvm.StateReadSingle
import LeafageEvm.Tempo.ChannelSafety
import LeafageEvm.Tempo.ExpiringNonce
import LeafageEvm.Tempo.FeeAmm
import LeafageEvm.Tempo.KeychainLimits
import LeafageEvm.Tempo.QuoteTree
import LeafageEvm.Tempo.TokenGuard
import LeafageEvm.Tempo.ValidatorMigration
import LeafageEvm.Tokens.RoleAdministration
import LeafageEvm.Tokens.Authority
import LeafageEvm.TreeCanonical
import LeafageEvm.TreeCommit
import LeafageEvm.TreeFork

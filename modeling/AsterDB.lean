import AsterDB.Models.Raft.Correctness.Reads
import AsterDB.Models.Runtime.Correctness.Proposals
import AsterDB.Models.Storage.Correctness.Atomicity
import AsterDB.Models.Storage.Correctness.WalBeforeData
import AsterDB.Models.Engine.Correctness.Conflicts
import AsterDB.Models.Engine.Correctness.Encodings
import AsterDB.Models.Storage.Correctness.CutLogs
import AsterDB.Models.Database.Correctness.Snapshots
import AsterDB.Models.Server.Correctness.Ownership
import AsterDB.Models.Runtime.Correctness.Frames
import AsterDB.Models.Raft.Correctness.Quorums
import AsterDB.Models.Database.Correctness.Joins
import AsterDB.Models.Storage.Correctness.Checkpoints
import AsterDB.Models.Raft.Correctness.Repair
import AsterDB.Models.Database.Correctness.Evaluation
import AsterDB.Models.Database.Correctness.TransactionIds
import AsterDB.Models.Protocol.Correctness.Readers
import AsterDB.Models.Storage.Correctness.Checksums

import Pclsync.Api.Results
import Pclsync.AsyncNet.Runs
import Pclsync.BigUpload.Runs
import Pclsync.BlockSearch.Adler
import Pclsync.BlockSearch.ChecksumHash
import Pclsync.Cache.Runs
import Pclsync.Compression.Runs
import Pclsync.ConnectCache.Runs
import Pclsync.Crypto.CtrCipher
import Pclsync.Crypto.FileNames
import Pclsync.Crypto.IntervalLog
import Pclsync.Crypto.SectorRoundTrip
import Pclsync.CryptoKeys.Runs
import Pclsync.Diff.GroupResults
import Pclsync.Diff.RefreshFolders
import Pclsync.Diff.Replica
import Pclsync.Downloads.ConflictName
import Pclsync.Downloads.Keeping
import Pclsync.Downloads.MergeFolders
import Pclsync.EncryptedFile.LockDiscipline
import Pclsync.EncryptedFile.Preparation
import Pclsync.FsFolder.FolderPaths
import Pclsync.FsFolder.Inodes
import Pclsync.FsFolder.ListingAgreement
import Pclsync.FsTasks.RenameFolder
import Pclsync.FsUpload.Runs
import Pclsync.Http.Scanning
import Pclsync.LinkedTree.Runs
import Pclsync.Localscan.Deletions
import Pclsync.OpenFile.CacheNames
import Pclsync.OpenFile.IndexJournal
import Pclsync.OpenFile.PlainFile
import Pclsync.OpenFile.Reopening
import Pclsync.PageCache.CleanCache
import Pclsync.PageCache.MemoryPagesInvariant
import Pclsync.PageCache.ModifyToCache
import Pclsync.PageCache.RangeHeader
import Pclsync.PathStatus.Routes
import Pclsync.PathStatus.Runs
import Pclsync.RwLock.Runs
import Pclsync.Sockets.WriteBuffer
import Pclsync.Sql.ListBuilder
import Pclsync.Sql.Transactions
import Pclsync.Syncer.LocalFolder
import Pclsync.Syncer.SyncRoots
import Pclsync.TaskRunner.Runs
import Pclsync.Text.Base64
import Pclsync.Text.MatchPattern
import Pclsync.Text.Utf8
import Pclsync.Timers.RunRateLimited
import Pclsync.Timers.Runs
import Pclsync.Tools.BackendCalls
import Pclsync.Transfers.Kept
import Pclsync.Uploads.Runs
import Pclsync.UrlCache.Runs

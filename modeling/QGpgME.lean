import QGpgME.EventRun
import QGpgME.EventQueue
import QGpgME.ThreadedJob
import QGpgME.ThreadedJobRuns
import QGpgME.ThreadedJobDevices
import QGpgME.GpgError
import QGpgME.MultiDeleteJob
import QGpgME.MultiDeleteRuns
import QGpgME.Utf8
import QGpgME.QtString
import QGpgME.ChunkCursor
import QGpgME.KeyListJob
import QGpgME.KeyListChunks
import QGpgME.KeyListLoops
import QGpgME.KeyListRounds
import QGpgME.AdjacentRuns
import QGpgME.MergeKeys
import QGpgME.ListAllKeys
import QGpgME.KeyForMailbox
import QGpgME.KeyForMailboxSubkeys
import QGpgME.RefreshSMIMEKeysJob
import QGpgME.RefreshBatches
import QGpgME.RefreshBudget
import QGpgME.RefreshRuns
import QGpgME.PartialFile
import QGpgME.FileCleaning
import QGpgME.FileWorkers
import QGpgME.SignToFilename
import QGpgME.Separators
import QGpgME.ADQueryResult
import QGpgME.ADQueryLines
import QGpgME.SplitLoop
import QGpgME.CallTrace
import QGpgME.Dirmngr
import QGpgME.KeyExpiry
import QGpgME.SignKeyJob
import QGpgME.DefaultKeyGenerationJob
import QGpgME.LdapUrl
import QGpgME.DnParser
import QGpgME.DnParts
import QGpgME.DistinguishedName
import QGpgME.DnRoundTrip
import QGpgME.DnValues
import QGpgME.DnHexValues
import QGpgME.RefCount
import QGpgME.DnHandles
import QGpgME.DnPretty
import QGpgME.DnLookup
import QGpgME.DnReorder
import QGpgME.ContextMap
import QGpgME.DataProvider
import QGpgME.DataProviderSeek
import QGpgME.FileListDataProvider
import QGpgME.QIODeviceDataProvider
import QGpgME.CryptoConfig
import QGpgME.Client
import QGpgME.DataDevices
import QGpgME.DeviceJobs
import QGpgME.WkdRefreshJob
import QGpgME.ParallelWorkerRuns
import QGpgME.TemporaryNames
import QGpgME.AuditLog
import QGpgME.DirmngrStart
import QGpgME.AddExistingSubkeyJob

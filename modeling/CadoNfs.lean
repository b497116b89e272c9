import CadoNfs.Cadofactor.FailedCommand
import CadoNfs.Cadofactor.LateUpload
import CadoNfs.Cadofactor.Outstanding
import CadoNfs.Cadofactor.ResultUploader
import CadoNfs.Cadofactor.TimedOut
import CadoNfs.Cadofactor.FormBody
import CadoNfs.Cadofactor.InputDownloader
import CadoNfs.Filter.MergeReplay
import CadoNfs.Filter.ReplayDl
import CadoNfs.Filter.ReplayIndex
import CadoNfs.Ecm.FindSmooth
import CadoNfs.Ecm.PracEncode
import CadoNfs.Ecm.PracRegisters
import CadoNfs.Sieve.FbRootBatch
import CadoNfs.Utils.GaloisOrbit
import CadoNfs.Utils.RenumberText
import CadoNfs.Utils.BackendCallEnds
import CadoNfs.Sieve.TodoListRange
import CadoNfs.Filter.SmMasterSync
import CadoNfs.Sieve.BucketComplete
import CadoNfs.Sieve.SearchSurvivors
import CadoNfs.Linalg.LingenRecursive
import CadoNfs.Filter.TotWeight
import CadoNfs.Filter.ReplayRenumber
import CadoNfs.Filter.HeapRuns
import CadoNfs.Filter.BucketWeights
import CadoNfs.Filter.Transpose
import CadoNfs.Sieve.FillInBucketsAreas
import CadoNfs.Linalg.MfBalExact
import CadoNfs.Filter.DupOverfilling
import CadoNfs.Filter.PurgeMatrix
import CadoNfs.Sieve.TrialDivide
import CadoNfs.Sieve.PlatticeDense
import CadoNfs.Sieve.SiqsConvert
import CadoNfs.Sieve.SkewGauss
import CadoNfs.Utils.Ndiv
import CadoNfs.Cadofactor.DictDbCached
import CadoNfs.Cadofactor.CadoUtils
import CadoNfs.Utils.RelationLines
import CadoNfs.Utils.RelationFormats
import CadoNfs.Cadofactor.CadoParamsLocate
import CadoNfs.Cadofactor.Mapper
import CadoNfs.Cadofactor.CadoParamsStr
import CadoNfs.Utils.RelationReuse
import CadoNfs.Filter.NeededRels
import CadoNfs.Sieve.SiqsTodoList
import CadoNfs.Linalg.BlocklanczosExtraction
import CadoNfs.Linalg.BblasGauss
import CadoNfs.Linalg.PleRuns
import CadoNfs.Ecm.FactorSimpleMinded
import CadoNfs.Ecm.ProductTree
import CadoNfs.Utils.IndexedRelation

import Glaux.Server.Authentication.KeySafety
import Glaux.Standards.Quality.BindingSound
import Glaux.Library.Program
import Glaux.Server.Application
import Glaux.Server.Storage.Database
import Glaux.Server.Authorization.OneRule
import Glaux.Server.Storage.World
import Glaux.Server.LostUpdate
import Glaux.Server.KeyedCreation
import Glaux.Server.Admission
import Glaux.Server.AdmissionContract
import Glaux.Server.AdmissionSafety
import Glaux.Library.Reachability
import Glaux.Server.Authorization.DenialRate
import Glaux.Server.DenialCap
import Glaux.Server.Storage.ParentForest
import Glaux.Domain.Scalar
import Glaux.Library.PrefixFree
import Glaux.Server.RetryIntent
import Glaux.Server.RetryIsolation
import Glaux.Standards.Scalar.AllowedValues
import Glaux.Server.Storage.RevisionRow
import Glaux.Domain.NumericMachine
import Glaux.Standards.RangeOrder
import Glaux.Standards.MemberOrder
import Glaux.Standards.Quality.Assertions
import Glaux.Standards.SchemaGuard
import Glaux.Server.SystemHttp
import Glaux.Standards.GeometryExact
import Glaux.Server.HttpBoundary.Negotiation
import Glaux.Standards.Projections
import Glaux.Standards.Units.Temporal
import Glaux.Standards.ArrayReferences
import Glaux.Domain.LocalUuid
import Glaux.Server.Storage.SourceIdentity
import Glaux.Standards.SchemaGuard.PointerIndex
import Glaux.Standards.Compiled.Plans
import Glaux.Server.Authorization.Pages
import Glaux.Server.Storage.Snapshot
import Glaux.Server.SystemReads
import Glaux.Library.TwoRuns
import Glaux.Server.Confidentiality

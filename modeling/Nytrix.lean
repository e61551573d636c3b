import Nytrix.Nir.AnalysisLaws
import Nytrix.Nir.Residue
import Nytrix.Nir.LoaderLaws
import Nytrix.Lower.Build
import Nytrix.Rt.DictRuns
import Nytrix.Rt.ValueLaws
import Nytrix.Rt.GcMajorGraph
import Nytrix.Native.LabelLaws
import Nytrix.Rt.Set
import Nytrix.Rt.PoolsLaws
import Nytrix.Native.RegAlloc
import Nytrix.Types.HmSilent
import Nytrix.Types.NarrowLaws
import Nytrix.Types.FlowLaws
import Nytrix.Parse.LexerRuns
import Nytrix.Parse.DiagLaws
import Nytrix.Lib.UnionFind
import Nytrix.Native.FloatMaps
import Nytrix.Nir.VerifyLaws
import Nytrix.Effects.Settled
import Nytrix.Types.Flow
import Nytrix.Logic.Report
import Nytrix.Logic.CertificateChecks
import Nytrix.Pkg.Confined
import Nytrix.Loader.Bundled
import Nytrix.Loader.Resolving
import Nytrix.Native.FrameLayout
import Nytrix.Types.NarrowFacts
import Nytrix.Lower.AggregateClassLaws
import Nytrix.Types.HmInstance
import Nytrix.Nir.PeepholeLaws
import Nytrix.Infer.Unifiers
import Nytrix.Pkg.RoundTrip
import Nytrix.Base.InternRuns
import Nytrix.Parse.DesugarLaws
import Nytrix.Parse.StringsLexed
import Nytrix.Parse.NumbersLexed
import Nytrix.Parse.ClimbLaws
import Nytrix.Parse.Positions
import Nytrix.Scopes.ScopeLaws
import Nytrix.Cache.JitPath
import Nytrix.Regex.Scanning
import Nytrix.Rt.DictCopies
import Nytrix.Codec.Csv
import Nytrix.Codec.Radix
import Nytrix.Big.Exact
import Nytrix.Big.Rational
import Nytrix.Rt.Equality
import Nytrix.Rt.SequencesLaws
import Nytrix.Rt.Conversion
import Nytrix.Str.CodePointLaws
import Nytrix.Rt.LargeIndex
import Nytrix.Rt.BigAbs
import Nytrix.Rt.Rows
import Nytrix.Rt.Defers
import Nytrix.Lib.BitPolynomials
import Nytrix.Rt.Gf2

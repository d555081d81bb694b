import Bebop.C.ArenaRuns
import Bebop.TypeScript.FrameStream
import Bebop.Compiler.ErrorsKept
import Bebop.Compiler.ImportsReordered
import Bebop.Compiler.QualifiedNames
import Bebop.Compiler.Visibility
import Bebop.Compiler.ServicesCompose
import Bebop.Compiler.ServicesReturn
import Bebop.Compiler.DescribedServices
import Bebop.Compiler.DescriptorOrder
import Bebop.Compiler.ParserFinishes
import Bebop.Rpc.InterceptorsGuard
import Bebop.TypeScript.Timestamp
import Bebop.TypeScript.GeneratorCollisions
import Bebop.C.MessageSize
import Bebop.Compiler.TimestampInstant
import Bebop.TypeScript.BFloat16
import Bebop.Compiler.UuidText
import Bebop.Compiler.PathIdentity
import Bebop.Compiler.ImportResolution
import Bebop.Compiler.CyclePath
import Bebop.TypeScript.Utf8Validation
import Bebop.Compiler.IntegerConstants
import Bebop.Cli.Glob
import Bebop.Compiler.TopLevelDefinitions
import Bebop.Compiler.TypeDepth
import Bebop.Compiler.ReferenceLists
import Bebop.Compiler.SourceLocations
import Bebop.Compiler.FixedSizes
import Bebop.C.UnionAlignment
import Bebop.Compiler.LuaMemory
import Bebop.Compiler.LuaBudget
import Bebop.Rpc.Cursors
import Bebop.Swift.PullingMap
import Bebop.TypeScript.ResolveStreamDelivery
import Bebop.Cli.PluginInsertions
import Bebop.C.MapGroups
import Bebop.Swift.Deadline
import Bebop.Lsp.Positions
import Bebop.Cli.OutputDirectory
import Bebop.Compiler.MethodRouting
import Bebop.Swift.UnionLimits
import Bebop.Compiler.InterningRuns
import Bebop.Message.Interchange
import Bebop.Compiler.EmittedLiterals

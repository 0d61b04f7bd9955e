import Forwarding.Proofs.Descriptor.RoundTrip
import Forwarding.Session.Run
import Forwarding.Proofs.Descriptor.Counting
import Forwarding.Proofs.Outcome
import Forwarding.Proofs.Resolver.StubTransparency
import Forwarding.Proofs.Delegation
import Forwarding.Proofs.Descriptor.ArrayName
import Forwarding.Proofs.Registry.ClassFile
import Forwarding.Proofs.Registry.Liveness
import Forwarding.Proofs.Resolver.CacheTransparency
import Forwarding.Proofs.Resolver.FirstHop
import Forwarding.Proofs.Bytes.Reading
import Forwarding.Proofs.Bytecode.Assembly
import Forwarding.Proofs.Bytecode.Operands
import Forwarding.Proofs.Bytecode.Decoding
import Forwarding.Proofs.Resolver.GateSteps
import Forwarding.Proofs.Resolver.OncePerKey
import Forwarding.Proofs.Registry.ClassBytes
import Forwarding.Proofs.Text.ModifiedUtf8
import Forwarding.Proofs.ClassFile.Writing
import Forwarding.Proofs.ClassFile.RoundTrip
import Forwarding.Proofs.Registry.Components
import Forwarding.Proofs.Registry.Root
import Forwarding.Proofs.Registry.SelfMention
import Forwarding.Proofs.Resolver.StubSearch
import Forwarding.Proofs.Session.Ancestry
import Forwarding.Proofs.Registry.Frame
import Forwarding.Proofs.Registry.Listing
import Forwarding.Proofs.ClassFile.Failing
import Forwarding.Proofs.Resolver.Failing
import Forwarding.Proofs.Resolver.CacheFrame
import Forwarding.Proofs.Descriptor.ErrorPosition
import Forwarding.Proofs.Resolver.GateCleanup
import Forwarding.Proofs.Session.TypeNames
import Forwarding.Proofs.ClassFile.References
import Forwarding.Proofs.Types.BoundedLookup
import Forwarding.Proofs.Bytecode.Streams
import Forwarding.Proofs.Delegation.Scanning
import Forwarding.Proofs.Delegation.EagerSearch
import Forwarding.Proofs.ClassFile.Layout
import Forwarding.Proofs.Delegation.Unread
import Forwarding.Proofs.Text.Spelling
import Forwarding.Proofs.Resolver.HopTarget
import Forwarding.Proofs.Resolver.ChainLength
import Forwarding.Proofs.Bytecode.Truncation
import Forwarding.Proofs.ClassFile.MethodWalk
import Forwarding.Proofs.ClassFile.PoolLayout
import Forwarding.Proofs.ClassFile.Truncation
import Forwarding.Proofs.Descriptor.SourceNames
import Forwarding.Proofs.Bytes.WordCursor
import Forwarding.Proofs.Descriptor.ReusedParser
import Forwarding.Proofs.Session.Defined

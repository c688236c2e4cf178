import VeeamSignature.Signature.Correctness
import VeeamSignature.Signature2.SegmentBytes
import VeeamSignature.Signature2.Completion
import VeeamSignature.Signature2.Reporting
import VeeamSignature.Signature2.Refinement
import VeeamSignature.Arguments
import VeeamSignature.Signature.Main
import VeeamSignature.Signature2.Process
import VeeamSignature.InputFrame
import VeeamSignature.SignatureFile
import VeeamSignature.BlockBounds
import VeeamSignature.CoreCount
import VeeamSignature.Crc32Steps
import VeeamSignature.Signature2.ShortReads
import VeeamSignature.Signature2.SegmentedHashing
import VeeamSignature.ArgumentParser
import VeeamSignature.Signature2.ReaderChains
import VeeamSignature.Signature2.Schedules
import VeeamSignature.Signature2.Faults
import VeeamSignature.Signature.HasherThreads
import VeeamSignature.Signature2.Overlap
import VeeamSignature.Signature2.FirstBytes
import VeeamSignature.Crc32Polynomial
import VeeamSignature.ChangeDetection
import VeeamSignature.OutputFile
import VeeamSignature.Signature.Coverage
import VeeamSignature.Signature2.Memory
import VeeamSignature.Signature2.Joining
import VeeamSignature.Signature2.PartialOutput

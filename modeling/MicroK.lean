import MicroK.ModelWindow
import MicroK.VmmTablePlan
import MicroK.HighBufferAlloc
import MicroK.SyscallStrings
import MicroK.LlamaModel
import MicroK.LlmText
import MicroK.LlmTopN
import MicroK.FixedPoint
import MicroK.MklmInference
import MicroK.LlmExclusion
import MicroK.KeyUnwrap
import MicroK.Sha1Correct
import MicroK.Partitions
import MicroK.ModelFile
import MicroK.Fat32Operations
import MicroK.DnsQueries
import MicroK.HttpDelivery
import MicroK.Fat32LongLookup
import MicroK.Fat32Deletion
import MicroK.ExtOffsets
import MicroK.Initrd
import MicroK.SharedMemory
import MicroK.IwlFirmwareTiling
import MicroK.IwlLinkSecurity
import MicroK.IwlNonces
import MicroK.IwlWalk
import MicroK.NumberText
import MicroK.ShellLine
import MicroK.TensorHeap

import CwlService.Main
import CwlService.Proofs.Analysis.Questions
import CwlService.Proofs.Workflow.Completion
import CwlService.Proofs.Document.Placed
import CwlService.Proofs.Document.KnownTypes
import CwlService.Proofs.Workspace.Addresses
import CwlService.Proofs.Rpc.Fields
import CwlService.Proofs.Rpc.Reads
import CwlService.Proofs.Server.Stream
import CwlService.Proofs.Rpc.Batch
import CwlService.Proofs.Server.JobFiles
import CwlService.Proofs.Analysis.Paths
import CwlService.Proofs.Language.Choice
import CwlService.Proofs.Expression.Joined
import CwlService.Proofs.Document.Completable
import CwlService.Proofs.Yaml.Healing
import CwlService.Proofs.Analysis.TypeNames
import CwlService.Proofs.Sample.Termination
import CwlService.Proofs.Document.Lookup
import CwlService.Proofs.Outline.Lines

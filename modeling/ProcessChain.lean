import ProcessChain.Files.Run
import ProcessChain.Proofs.Comment.Places
import ProcessChain.Proofs.Composition.Agreement
import ProcessChain.Proofs.Composition.Bracketing
import ProcessChain.Proofs.Composition.Roundtrip
import ProcessChain.Proofs.Composition.Sequence
import ProcessChain.Proofs.Composition.Spans
import ProcessChain.Proofs.Composition.Writability
import ProcessChain.Proofs.Diagram.Convergence
import ProcessChain.Proofs.Diagram.Extension
import ProcessChain.Proofs.Diagram.Traces
import ProcessChain.Proofs.Drawing.Canvases
import ProcessChain.Proofs.Drawing.DotText
import ProcessChain.Proofs.Drawing.GraphMlText
import ProcessChain.Proofs.Files.FlowNames
import ProcessChain.Proofs.Files.Preparation
import ProcessChain.Proofs.Files.Publication
import ProcessChain.Proofs.Files.Repetition
import ProcessChain.Proofs.Files.Search
import ProcessChain.Proofs.Flow.Annotations
import ProcessChain.Proofs.Flow.Batches
import ProcessChain.Proofs.Remark.Acceptance
import ProcessChain.Proofs.Run.Announcements
import ProcessChain.Proofs.Run.Ends
import ProcessChain.Proofs.Run.Faults
import ProcessChain.Proofs.Run.FileNames
import ProcessChain.Proofs.Run.Insertion
import ProcessChain.Proofs.Run.References
import ProcessChain.Proofs.Run.Sides
import ProcessChain.Proofs.Run.Topics

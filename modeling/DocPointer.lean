import DocPointer.Command
import DocPointer.Document.Access
import DocPointer.Fields.Cache
import DocPointer.Main
import DocPointer.Samples.Hooky
import DocPointer.Proofs.Fields.Dominance
import DocPointer.Proofs.Walk.Atomicity
import DocPointer.Proofs.Walk.Region
import DocPointer.Proofs.Walk.Retrieval
import DocPointer.Proofs.Walk.Absence
import DocPointer.Proofs.Walk.Overwriting
import DocPointer.Proofs.Walk.Exchange
import DocPointer.Proofs.Walk.Frame
import DocPointer.Proofs.Walk.Restoring
import DocPointer.Proofs.Walk.Removal
import DocPointer.Proofs.Pointer.Segments
import DocPointer.Proofs.Walk.Growth
import DocPointer.Proofs.Walk.Secrecy
import DocPointer.Proofs.Walk.Folding
import DocPointer.Proofs.Walk.Putting
import DocPointer.Proofs.Walk.Commuting
import DocPointer.Proofs.Walk.Repetition
import DocPointer.Proofs.Walk.Undoing
import DocPointer.Proofs.Walk.Rewriting
import DocPointer.Proofs.Walk.Indexing
import DocPointer.Proofs.Json.Indented
import DocPointer.Proofs.Json.Grammar
import DocPointer.Proofs.Command
import DocPointer.Proofs.Acceptance
import DocPointer.Proofs.Walk.Encodability
import DocPointer.Proofs.Walk.Delivery
import DocPointer.Proofs.Walk.Shaping
import DocPointer.Proofs.Walk.Furnishing
import DocPointer.Proofs.Walk.Bounds
import DocPointer.Proofs.Walk.Overrun
import DocPointer.Proofs.Walk.Links
import DocPointer.Proofs.Walk.Malformed
import DocPointer.Proofs.Walk.Forbidden
import DocPointer.Proofs.Fields.Listing
import DocPointer.Proofs.Fields.Search
import DocPointer.Proofs.Walk.Followers

import Backend.Main
import Backend.Proofs.Annotation
import Backend.Proofs.Construction
import Backend.Proofs.Delivery
import Backend.Proofs.Footprint
import Backend.Proofs.Format
import Backend.Proofs.FrameReport
import Backend.Proofs.LibraryCalls
import Backend.Proofs.LiteralPool
import Backend.Proofs.Parentheses
import Backend.Proofs.Reindexing
import Backend.Proofs.Renaming
import Backend.Proofs.Rereading
import Backend.Proofs.Reservation
import Backend.Proofs.ScopeModes
import Backend.Proofs.StackDiscipline
import Backend.Proofs.Stamping
import Backend.Proofs.TreeText

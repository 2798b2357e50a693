import FixedForm.Main
import FixedForm.Proofs.Spelling.Dotted
import FixedForm.Proofs.Stage.Rank
import FixedForm.Proofs.Stage.Trailing
import FixedForm.Proofs.Stage.Literal
import FixedForm.Proofs.Inference.Moved
import FixedForm.Proofs.Command.Batch
import FixedForm.Proofs.Block.Depth
import FixedForm.Proofs.Block.Iteration
import FixedForm.Proofs.Reference.Storage
import FixedForm.Proofs.Reference.Unmatched
import FixedForm.Proofs.Reference.Passing
import FixedForm.Proofs.Call.Denotation
import FixedForm.Proofs.Output.Subscript
import FixedForm.Proofs.Stage.Undeclared
import FixedForm.Proofs.Declaration.Entry
import FixedForm.Proofs.Inference.Header
import FixedForm.Proofs.Files.Selection
import FixedForm.Proofs.Text.Dyck
import FixedForm.Proofs.Spelling.Outside
import FixedForm.Proofs.Card.Mark
import FixedForm.Proofs.Spelling.Balance

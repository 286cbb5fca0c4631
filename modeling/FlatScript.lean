import FlatScript.Main
import FlatScript.Proofs.Batch
import FlatScript.Proofs.CallChain
import FlatScript.Proofs.Compound
import FlatScript.Proofs.Concatenation
import FlatScript.Proofs.CutOff
import FlatScript.Proofs.Depth
import FlatScript.Proofs.Dispatch
import FlatScript.Proofs.Erasure
import FlatScript.Proofs.FirstError
import FlatScript.Proofs.FirstFlaw
import FlatScript.Proofs.Frame
import FlatScript.Proofs.Height
import FlatScript.Proofs.Indexing
import FlatScript.Proofs.Literal
import FlatScript.Proofs.Lookahead
import FlatScript.Proofs.Naming
import FlatScript.Proofs.Observation
import FlatScript.Proofs.Outline
import FlatScript.Proofs.Progress
import FlatScript.Proofs.Recursion
import FlatScript.Proofs.RenamedRun
import FlatScript.Proofs.Reuse
import FlatScript.Proofs.Rounding
import FlatScript.Proofs.Scanning
import FlatScript.Proofs.Session
import FlatScript.Proofs.Shadowing
import FlatScript.Proofs.Spacing
import FlatScript.Proofs.Substitution
import FlatScript.Proofs.Truncation
import FlatScript.Proofs.Typing
import FlatScript.Proofs.Wraparound

import FexprLisp.Files
import FexprLisp.Host.Build
import FexprLisp.Host.Stock
import FexprLisp.Main
import FexprLisp.Proofs.Asking
import FexprLisp.Proofs.Atoms
import FexprLisp.Proofs.Congruence
import FexprLisp.Proofs.Constancy
import FexprLisp.Proofs.Evaluation
import FexprLisp.Proofs.Faults
import FexprLisp.Proofs.Frames
import FexprLisp.Proofs.Grammar
import FexprLisp.Proofs.Joining
import FexprLisp.Proofs.Layers
import FexprLisp.Proofs.Lexing
import FexprLisp.Proofs.Promises
import FexprLisp.Proofs.Readable
import FexprLisp.Proofs.RoundTrip
import FexprLisp.Proofs.Runs
import FexprLisp.Proofs.Scope
import FexprLisp.Proofs.Viability
import FexprLisp.Proofs.View
import FexprLisp.Proofs.Written
import FexprLisp.Session
import FexprLisp.TokenStream
import FexprLisp.Proofs.Correspondence
import FexprLisp.Proofs.Causes
import FexprLisp.Proofs.Unrolling
import FexprLisp.Proofs.Barring
import FexprLisp.Proofs.Renaming
import FexprLisp.Proofs.Lines
import FexprLisp.Proofs.Dialogue
import FexprLisp.Proofs.Piecemeal
import FexprLisp.Proofs.Folds
import FexprLisp.Proofs.Shapes
import FexprLisp.Proofs.Logging
import FexprLisp.Proofs.Calls
import FexprLisp.Proofs.Equality
import FexprLisp.Proofs.Tiling
import FexprLisp.Proofs.AtomEnds
import FexprLisp.Proofs.Rounding
import FexprLisp.Proofs.Rerounding
import FexprLisp.Proofs.ShortestDigits
import FexprLisp.Proofs.Brackets
import FexprLisp.Proofs.Numerals
import FexprLisp.Proofs.ReadBack
import FexprLisp.Proofs.Assignment
import FexprLisp.Proofs.Definitions
import FexprLisp.Proofs.RawForm
import FexprLisp.Proofs.Escapes
import FexprLisp.Proofs.Operations

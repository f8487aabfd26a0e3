import Formwork.Engine
import Formwork.Proofs.Accepted
import Formwork.Proofs.Limit
import Formwork.Proofs.Endless
import Formwork.Proofs.Locked
import Formwork.Proofs.Discipline
import Formwork.Proofs.RoundTrip
import Formwork.Proofs.Symmetry
import Formwork.Proofs.Advance
import Formwork.Proofs.Pairing
import Formwork.Proofs.Agree
import Formwork.Proofs.Impartial
import Formwork.Proofs.Independence
import Formwork.Proofs.Reach
import Formwork.Proofs.Locality
import Formwork.Proofs.SourceOrder
import Formwork.Proofs.Spans
import Formwork.Proofs.Layout
import Formwork.Proofs.Precedence
import Formwork.Proofs.Cutoff
import Formwork.Proofs.Structural
import Formwork.Proofs.Numerals
import Formwork.Proofs.Malformed
import Formwork.Proofs.Earlier
import Formwork.Proofs.Inserted
import Formwork.Proofs.RangeLoops
import Formwork.Proofs.Exchange
import Formwork.Proofs.InsertionOrder
import Formwork.Proofs.Lexical
import Formwork.Proofs.Unfolding
import Formwork.Proofs.Coherence
import Formwork.Proofs.Overrides
import Formwork.Proofs.Longest
import Formwork.Proofs.Recovery
import Formwork.Proofs.Gaps
import Formwork.Proofs.Attempts
import Formwork.Proofs.Unambiguous

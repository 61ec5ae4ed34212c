import SmallLisp.Main
import SmallLisp.Directory
import SmallLisp.Proofs.Recursion
import SmallLisp.Proofs.Reach
import SmallLisp.Proofs.Rejection
import SmallLisp.Proofs.TailCalls
import SmallLisp.Proofs.Extending
import SmallLisp.Proofs.Conversation
import SmallLisp.Proofs.Sequence
import SmallLisp.Proofs.History
import SmallLisp.Proofs.Moment
import SmallLisp.Proofs.Caller
import SmallLisp.Proofs.Native
import SmallLisp.Proofs.Repetition
import SmallLisp.Proofs.Parameters
import SmallLisp.Proofs.Equality
import SmallLisp.Proofs.Rereading
import SmallLisp.Proofs.Foreign
import SmallLisp.Proofs.Division
import SmallLisp.Proofs.MapLiteral
import SmallLisp.Proofs.Stream
import SmallLisp.Proofs.Spacing
import SmallLisp.Proofs.PlainData
import SmallLisp.Proofs.ClosureText
import SmallLisp.Proofs.Strings

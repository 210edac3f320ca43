import Lox.Main
import Lox.Tree.OfJson
import Lox.Json.Reader
import Lox.Proofs.Store.Existence
import Lox.Proofs.Store.Exactness
import Lox.Proofs.Agreement.Sessions
import Lox.Proofs.Scoping.Distances
import Lox.Proofs.Scoping.Mirror
import Lox.Proofs.Machine.Restoration
import Lox.Proofs.Joined.Running
import Lox.Proofs.Renaming.Running
import Lox.Proofs.Calls.Returns
import Lox.Proofs.Calls.Budget
import Lox.Proofs.Session.Garbage
import Lox.Proofs.Session.Departures
import Lox.Proofs.Dispatch.Construction
import Lox.Proofs.Outline.Slots
import Lox.Proofs.Outline.Violations
import Lox.Proofs.Lexing.Lines
import Lox.Proofs.Lexing.Decoding
import Lox.Proofs.Lexing.Rescanning
import Lox.Proofs.Joined.Printing
import Lox.Proofs.Syntax.Bounds
import Lox.Proofs.Syntax.Phrases
import Lox.Proofs.Syntax.Residuals
import Lox.Proofs.Syntax.Tracking
import Lox.Proofs.Syntax.Followed
import Lox.Proofs.Syntax.Prefixes
import Lox.Proofs.Output.Capacity
import Lox.Proofs.Reclaim.Backlog
import Lox.Proofs.Loops.Faithful
import Lox.Proofs.Store.Coherence
import Lox.Proofs.Json.Trees
import Lox.Proofs.Reclaim.Amortized

import TaskBoard.Session.Inspect
import TaskBoard.Session.Patterns
import TaskBoard.Session.Walking
import TaskBoard.Proofs.Walk.Past
import TaskBoard.Proofs.Walk.Law
import TaskBoard.Proofs.Walk.Keeping
import TaskBoard.Proofs.Walk.Order
import TaskBoard.Proofs.Walk.Failing
import TaskBoard.Proofs.Walk.Pacing
import TaskBoard.Proofs.Acting
import TaskBoard.Proofs.Recording
import TaskBoard.Proofs.Context.Nesting
import TaskBoard.Proofs.Context.Running
import TaskBoard.Proofs.Context.Dispatching
import TaskBoard.Proofs.Context.Discipline
import TaskBoard.Proofs.Forwarding.Books
import TaskBoard.Proofs.Forwarding.Running
import TaskBoard.Proofs.Forwarding.Delivery
import TaskBoard.Proofs.Forwarding.Interleaving
import TaskBoard.Proofs.Forwarding.Declared
import TaskBoard.Proofs.Forwarding.Resolving
import TaskBoard.Proofs.Forwarding.Handling
import TaskBoard.Proofs.Forwarding.Collecting
import TaskBoard.Proofs.Forwarding.OnlyOnce
import TaskBoard.Proofs.Pattern.Parts
import TaskBoard.Proofs.Pattern.Rewriting
import TaskBoard.Proofs.Pattern.Placing
import TaskBoard.Proofs.Pattern.Writing
import TaskBoard.Proofs.Pattern.Stamping
import TaskBoard.Proofs.Pattern.Triggering
import TaskBoard.Proofs.Pattern.Stripping
import TaskBoard.Proofs.Pattern.Passing
import TaskBoard.Proofs.Pattern.Describing
import TaskBoard.Proofs.Dispatching.Routing
import TaskBoard.Proofs.Dispatching.Providing
import TaskBoard.Proofs.Dispatching.Initializing
import TaskBoard.Proofs.Collecting.Holding
import TaskBoard.Proofs.Ending
import TaskBoard.Proofs.Collecting.Outcome
import TaskBoard.Proofs.Collecting.Sharing
import TaskBoard.Proofs.Collecting.Growing
import TaskBoard.Proofs.Collecting.Handing
import TaskBoard.Proofs.Collecting.Noting
import TaskBoard.Proofs.Collecting.Resolving
import TaskBoard.Proofs.Loading.Joining
import TaskBoard.Proofs.Collecting.Repeating
import TaskBoard.Proofs.Loading.Sifting
import TaskBoard.Proofs.Loading.Overwriting
import TaskBoard.Proofs.Loading.Checking
import TaskBoard.Proofs.Files.Listing
import TaskBoard.Proofs.Files.Stripping
import TaskBoard.Proofs.Files.Surfacing
import TaskBoard.Proofs.Collecting.Accounting
import TaskBoard.Proofs.Collecting.Alike
import TaskBoard.Proofs.Collecting.Answering
import TaskBoard.Proofs.Collecting.Looping
import TaskBoard.Proofs.Loading.Escaping

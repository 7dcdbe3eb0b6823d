import Invariance.Proofs.FiniteState.Verdicts
import Invariance.Scripted.Player
import Invariance.Proofs.Agenda.Table
import Invariance.Proofs.Twins.Maps
import Invariance.Proofs.FiniteState.Twins.Sessions
import Invariance.Proofs.FiniteState.Twins.Answers
import Invariance.Proofs.Twins.Containers
import Invariance.Proofs.FiniteState.Twins.Searches
import Invariance.Proofs.FiniteState.Twins.Extensions
import Invariance.Proofs.FiniteState.Twins.Pushing
import Invariance.Proofs.FiniteState.Twins.Rounds
import Invariance.Proofs.FiniteState.Twins.Queries
import Invariance.Proofs.Courses
import Invariance.Proofs.Search.Courses
import Invariance.Proofs.FiniteState.Passing.Idle
import Invariance.Proofs.FiniteState.Passing.Additions
import Invariance.Proofs.FiniteState.Passing.Enclosing
import Invariance.Proofs.FiniteState.Passing.Draining
import Invariance.Proofs.FiniteState.Passing.Rounds
import Invariance.Proofs.FiniteState.Passing.Queries
import Invariance.Proofs.FiniteState.Passing.Trails
import Invariance.Proofs.FiniteState.Replays.Universes
import Invariance.Proofs.FiniteState.Replays.Sessions
import Invariance.Proofs.FiniteState.Replays.Searches
import Invariance.Proofs.FiniteState.Replays.Queries
import Invariance.Proofs.Transcripts.Accounts
import Invariance.Proofs.Transcripts.Books
import Invariance.Proofs.Transcripts.Erasing
import Invariance.Proofs.Transcripts.Extensions
import Invariance.Proofs.Transcripts.Keeping
import Invariance.Proofs.Transcripts.Renewal
import Invariance.Proofs.Transcripts.Queries
import Invariance.Proofs.Transcripts.Limits
import Invariance.Proofs.Transcripts.Aftermath
import Invariance.Proofs.Transcripts.Climbing
import Invariance.Proofs.FiniteState.Collecting
import Invariance.Proofs.Renaming.Containers
import Invariance.Proofs.FiniteState.Compaction
import Invariance.Proofs.FiniteState.Checking
import Invariance.Proofs.FiniteState.Refining
import Invariance.Proofs.Agenda.Handles
import Invariance.Proofs.Transcripts.Splitting
import Invariance.FiniteState.WordSet
import Invariance.FiniteState.Graph
import Invariance.Proofs.FiniteState.Recipes
import Invariance.Proofs.FiniteState.Graphs
import Invariance.Proofs.FiniteState.Layers
import Invariance.Proofs.FiniteState.Exploring
import Invariance.Proofs.FiniteState.Scopes
import Invariance.Proofs.FiniteState.Learning
import Invariance.Proofs.Mirroring
import Invariance.Proofs.Drawing
import Invariance.Proofs.Figures.Queries

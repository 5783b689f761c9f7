import TableScript.Main
import TableScript.Proofs.Evaluation.Termination
import TableScript.Proofs.Interpreter.Phases
import TableScript.Proofs.Parsing.Acceptance
import TableScript.Proofs.Parsing.Progress
import TableScript.Proofs.Scanning.Tokens
import TableScript.Proofs.Reading.Imports
import TableScript.Proofs.Reading.Provenance
import TableScript.Proofs.Reading.Resolution
import TableScript.Proofs.Interpreter.Attribution
import TableScript.Proofs.Interpreter.FileAttribution
import TableScript.Proofs.Reading.Limits
import TableScript.Proofs.Evaluation.Parametric
import TableScript.Proofs.Evaluation.Following
import TableScript.Proofs.Evaluation.CallLimit
import TableScript.Proofs.Evaluation.Positions
import TableScript.Proofs.Evaluation.Footprint
import TableScript.Proofs.Reading.Layout
import TableScript.Proofs.Reading.RoundTrip
import TableScript.Proofs.Interpreter.Pieces
import TableScript.Proofs.Evaluation.Inlining
import TableScript.Proofs.Reading.ErrorPath
import TableScript.Proofs.Evaluation.ExtraFrame
import TableScript.Proofs.Evaluation.Arguments
import TableScript.Proofs.Evaluation.Reached
import TableScript.Proofs.Evaluation.OneReturn
import TableScript.Proofs.Evaluation.Points
import TableScript.Proofs.Evaluation.CallCount
import TableScript.Proofs.Evaluation.StackOfMaps
import TableScript.Proofs.Value.NumberOrder
import TableScript.Proofs.Value.KeyOrder
import TableScript.Proofs.Value.Entries
import TableScript.Proofs.Value.TableHistory
import TableScript.Proofs.Value.Printing
import TableScript.Proofs.Value.SharedTables
import TableScript.Proofs.Reading.Embedding
import TableScript.Proofs.Reading.Nesting
import TableScript.Proofs.Parsing.Beginnings
import TableScript.Proofs.Parsing.EarliestError
import TableScript.Proofs.Parsing.Descent
import TableScript.Proofs.Parsing.Reuse
import TableScript.Proofs.Parsing.TokensTaken

import QueensPuzzle.Main
import QueensPuzzle.Session.Editing
import QueensPuzzle.Session.Stepping
import QueensPuzzle.Proofs.Search.Scan
import QueensPuzzle.Proofs.Search.Admissibility
import QueensPuzzle.Proofs.Search.Turns
import QueensPuzzle.Proofs.Search.FirstSolution
import QueensPuzzle.Proofs.Console.KeyStrokes
import QueensPuzzle.Proofs.Console.Regions
import QueensPuzzle.Proofs.Placement.Candidates
import QueensPuzzle.Proofs.Placement.FirstRow
import QueensPuzzle.Proofs.Placement.Solvable
import QueensPuzzle.Proofs.Board.Agreement
import QueensPuzzle.Proofs.Board.Toggling
import QueensPuzzle.Proofs.Board.Picture
import QueensPuzzle.Proofs.Session.Editing
import QueensPuzzle.Proofs.Session.Deadline
import QueensPuzzle.Proofs.Session.Stepping
import QueensPuzzle.Proofs.CommandLine.Trace
import QueensPuzzle.Proofs.Json.Lexis
import QueensPuzzle.Proofs.Json.Reader
import QueensPuzzle.Proofs.Board.Codec
import QueensPuzzle.Proofs.Placement.Sorting
import QueensPuzzle.Proofs.CommandLine.Numerals
import QueensPuzzle.Proofs.Looking

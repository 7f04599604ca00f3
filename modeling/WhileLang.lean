import WhileLang.Scanner.Trail
import WhileLang.Main
import WhileLang.Proofs.Feed
import WhileLang.Proofs.Grammar
import WhileLang.Proofs.Descent
import WhileLang.Proofs.Tracking
import WhileLang.Proofs.Agreement
import WhileLang.Proofs.Outcome
import WhileLang.Proofs.Viability
import WhileLang.Proofs.Completeness
import WhileLang.Proofs.Recognition
import WhileLang.Proofs.LeftmostFault
import WhileLang.Proofs.Encoding
import WhileLang.Proofs.WholeNumber
import WhileLang.Proofs.Progress
import WhileLang.Proofs.Image
import WhileLang.Proofs.Regrouping
import WhileLang.Proofs.Redisplay
import WhileLang.Proofs.Tokenisation
import WhileLang.Proofs.CursorIndex
import WhileLang.Proofs.Lookahead
import WhileLang.Proofs.Execution
import WhileLang.Proofs.Concatenation
import WhileLang.Proofs.Trace
import WhileLang.Proofs.Dependence
import WhileLang.Proofs.Spacing
import WhileLang.Proofs.Conservation
import WhileLang.Proofs.Shortest
import WhileLang.Proofs.ReadBack
import WhileLang.Proofs.DumpedSeed
import WhileLang.Proofs.DocumentText
import WhileLang.Proofs.UniqueDocument
import WhileLang.Proofs.Reporting
import WhileLang.Proofs.ByteOrder
import WhileLang.Proofs.Dump
import WhileLang.Proofs.UniqueTree
import WhileLang.Proofs.Coherence
import WhileLang.Proofs.Frame
import WhileLang.Proofs.OperatorChain
import WhileLang.Proofs.Equivalence
import WhileLang.Proofs.Rewriting
import WhileLang.Proofs.Normalisation
import WhileLang.Proofs.Halting
import WhileLang.Proofs.Stripping
import WhileLang.Proofs.ExactValue
import WhileLang.Proofs.Rounding
import WhileLang.Proofs.NearestDouble
import WhileLang.Proofs.ShortestDigits
import WhileLang.Proofs.PrintedNumber
import WhileLang.Proofs.Locality
import WhileLang.Proofs.SmallInteger
import WhileLang.Proofs.SeedGrammar

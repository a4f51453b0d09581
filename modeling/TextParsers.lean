import TextParsers.Dump
import TextParsers.Grammar.Evaluation
import TextParsers.Json.Encoding
import TextParsers.Proofs.ConsistentCursors
import TextParsers.Proofs.Likeness
import TextParsers.Proofs.GrammarSteps
import TextParsers.Proofs.GrammarRuns
import TextParsers.Proofs.ReachedCursors
import TextParsers.Proofs.ForwardFlow
import TextParsers.Proofs.ConsumedPrefix
import TextParsers.Proofs.ForwardRepetition
import TextParsers.Proofs.Meaning
import TextParsers.Proofs.Shapes
import TextParsers.Proofs.Edits
import TextParsers.Proofs.LoggedRuns
import TextParsers.Proofs.Nullability
import TextParsers.Proofs.LeftRecursion
import TextParsers.Proofs.MaximalChains
import TextParsers.Proofs.CountedSequences
import TextParsers.Proofs.BoundedRepetition
import TextParsers.Proofs.RepetitionsAgree
import TextParsers.Proofs.NestedRepetition
import TextParsers.Proofs.DerivedCombinators
import TextParsers.Proofs.FirstFailure
import TextParsers.Proofs.LiteralPrefixes
import TextParsers.Proofs.FailuresInPlace
import TextParsers.Proofs.Scanning
import TextParsers.Proofs.MappedValues
import TextParsers.Proofs.Successes
import TextParsers.Proofs.CharacterRuns
import TextParsers.Proofs.SaturatingMoves
import TextParsers.Proofs.FaithfulDiagnostics
import TextParsers.Proofs.NestedBrackets
import TextParsers.Proofs.KeyValuePairs
import TextParsers.Proofs.FaithfulJson
import TextParsers.Proofs.QuotedTexts
import TextParsers.Proofs.UniqueReading
import TextParsers.Proofs.DumpOutlines
import TextParsers.Proofs.FaithfulDumps

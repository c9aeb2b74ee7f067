import JsPrune.Command.Arguments
import JsPrune.Command.Directory
import JsPrune.Node.Agreement
import JsPrune.Main
import JsPrune.Proofs.Conformance
import JsPrune.Proofs.Holding
import JsPrune.Proofs.Preorder
import JsPrune.Proofs.Traversal
import JsPrune.Proofs.Inspection
import JsPrune.Proofs.Recording
import JsPrune.Proofs.Continuing
import JsPrune.Proofs.Pruning
import JsPrune.Proofs.Meaning
import JsPrune.Proofs.Repruning
import JsPrune.Proofs.Shrinking
import JsPrune.Proofs.Evaluating
import JsPrune.Proofs.Spelling
import JsPrune.Proofs.Rendering
import JsPrune.Proofs.Reading
import JsPrune.Proofs.Phrases
import JsPrune.Proofs.Expressions
import JsPrune.Proofs.Sentences
import JsPrune.Proofs.Compounds
import JsPrune.Proofs.Printable
import JsPrune.Proofs.ReadBack
import JsPrune.Proofs.Seams
import JsPrune.Proofs.Seamless
import JsPrune.Proofs.RoundTrip
import JsPrune.Proofs.Growth
import JsPrune.Proofs.Towers
import JsPrune.Proofs.Grammatical
import JsPrune.Proofs.Parsed
import JsPrune.Proofs.Sifting
import JsPrune.Proofs.Sweeping
import JsPrune.Proofs.GrammarKept
import JsPrune.Proofs.Halting
import JsPrune.Proofs.Fusing
import JsPrune.Proofs.Tiling
import JsPrune.Proofs.Moving
import JsPrune.Proofs.Resuming
import JsPrune.Proofs.Pointing
import JsPrune.Proofs.Tidying
import JsPrune.Proofs.Relating
import JsPrune.Proofs.Observing
import JsPrune.Proofs.Cascading
import JsPrune.Proofs.JsonText
import JsPrune.Proofs.Interchange
import JsPrune.Proofs.Consulting
import JsPrune.Proofs.Descending
import JsPrune.Proofs.Climbing
import JsPrune.Proofs.Keys
import JsPrune.Proofs.Miswriting
import JsPrune.Proofs.Quoting
import JsPrune.Proofs.Respacing
import JsPrune.Proofs.LineBreaks
import JsPrune.Proofs.Rounding
import JsPrune.Proofs.ShortestDigits
import JsPrune.Proofs.NumberText
import JsPrune.Proofs.Measuring
import JsPrune.Proofs.LastWord

import PhraseChart.Chart.FixedWidth
import PhraseChart.Grammar.Derivation
import PhraseChart.GrammarFile.Spelling
import PhraseChart.Main
import PhraseChart.Program.Stepwise
import PhraseChart.Proofs.Chart.Exactness
import PhraseChart.Proofs.Chart.Extension
import PhraseChart.Proofs.Chart.Language
import PhraseChart.Proofs.Chart.Layout
import PhraseChart.Proofs.Chart.Lexicon
import PhraseChart.Proofs.Chart.Locality
import PhraseChart.Proofs.Chart.Outlines
import PhraseChart.Proofs.Chart.Places
import PhraseChart.Proofs.Chart.Renaming
import PhraseChart.Proofs.Chart.Rendering
import PhraseChart.Proofs.Chart.Reordering
import PhraseChart.Proofs.Forest.Growth
import PhraseChart.Proofs.Forest.Joining
import PhraseChart.Proofs.Forest.Unfolding
import PhraseChart.Proofs.Grammar.Grouping
import PhraseChart.Proofs.Grammar.Indexing
import PhraseChart.Proofs.Grammar.Registration
import PhraseChart.Proofs.Grammar.Renaming
import PhraseChart.Proofs.GrammarFile.Bytes
import PhraseChart.Proofs.GrammarFile.Editing
import PhraseChart.Proofs.GrammarFile.Faults
import PhraseChart.Proofs.GrammarFile.Format
import PhraseChart.Proofs.GrammarFile.Layout
import PhraseChart.Proofs.GrammarFile.LineEnds
import PhraseChart.Proofs.GrammarFile.Loaded
import PhraseChart.Proofs.GrammarFile.Reading
import PhraseChart.Proofs.GrammarFile.Refusal
import PhraseChart.Proofs.GrammarFile.RoundTrip
import PhraseChart.Proofs.GrammarFile.Segments
import PhraseChart.Proofs.GrammarFile.Writing
import PhraseChart.Proofs.Program.Arguments
import PhraseChart.Proofs.Program.Complaints
import PhraseChart.Proofs.Program.Generating
import PhraseChart.Proofs.Program.Notes
import PhraseChart.Proofs.Program.Sentences
import PhraseChart.Proofs.Program.Stepwise
import PhraseChart.Proofs.Program.Tracing
import PhraseChart.Proofs.Sampling.Drawing
import PhraseChart.Proofs.Sampling.Failing
import PhraseChart.Proofs.Sampling.Feeding
import PhraseChart.Proofs.Sampling.Grounded
import PhraseChart.Proofs.Sampling.Patience
import PhraseChart.Proofs.Sampling.Range
import PhraseChart.Proofs.Sampling.Source
import PhraseChart.Proofs.Text.Encoding
import PhraseChart.Proofs.Text.Lines
import PhraseChart.Proofs.Text.Words
import PhraseChart.Proofs.Tree.Brackets
import PhraseChart.Proofs.Tree.Outline

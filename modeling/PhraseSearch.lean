import PhraseSearch.Automaton.Path
import PhraseSearch.Main
import PhraseSearch.Network.Reachable
import PhraseSearch.Network.Walk
import PhraseSearch.Network.Denotation
import PhraseSearch.Pattern.OfRules
import PhraseSearch.Rule.Printer
import PhraseSearch.Rule.References
import PhraseSearch.Search.DepthFirst
import PhraseSearch.Search.Pool
import PhraseSearch.Search.Schedule
import PhraseSearch.Proofs.Automaton.Binding
import PhraseSearch.Proofs.Automaton.Numbering
import PhraseSearch.Proofs.Finder.Building
import PhraseSearch.Proofs.Finder.Phrases
import PhraseSearch.Proofs.Finder.Runs
import PhraseSearch.Proofs.Grammar.Inlining
import PhraseSearch.Proofs.Grammar.Language
import PhraseSearch.Proofs.Grammar.Roots
import PhraseSearch.Proofs.Letter.Spelling
import PhraseSearch.Proofs.Lexicon
import PhraseSearch.Proofs.Network.Connectors
import PhraseSearch.Proofs.Network.Edits
import PhraseSearch.Proofs.Network.Grafting
import PhraseSearch.Proofs.Network.Lowering
import PhraseSearch.Proofs.Network.Planting
import PhraseSearch.Proofs.Network.Reading
import PhraseSearch.Proofs.Network.Segments
import PhraseSearch.Proofs.Network.Trees
import PhraseSearch.Proofs.Network.Wiring
import PhraseSearch.Proofs.Pattern.Compile
import PhraseSearch.Proofs.Pattern.Denotation
import PhraseSearch.Proofs.Rule.Language
import PhraseSearch.Proofs.Search.Exploration
import PhraseSearch.Proofs.Search.Phrases
import PhraseSearch.Proofs.Search.Schedules
import PhraseSearch.Proofs.Search.Solutions
import PhraseSearch.Proofs.Search.Traces
import PhraseSearch.Proofs.Search.Pending
import PhraseSearch.Proofs.Search.Sequential
import PhraseSearch.Proofs.Search.Endings
import PhraseSearch.Pattern.Expansion
import PhraseSearch.Proofs.Pattern.Expansion
import PhraseSearch.Proofs.Rule.Settling
import PhraseSearch.Proofs.Grammar.Rounds
import PhraseSearch.Grammar.InPlace
import PhraseSearch.Proofs.Grammar.Resolution
import PhraseSearch.Proofs.Network.TwinTrees
import PhraseSearch.Proofs.Automaton.Twins
import PhraseSearch.Proofs.Grammar.Layout
import PhraseSearch.Proofs.Network.Denotation
import PhraseSearch.Automaton.Trim
import PhraseSearch.Proofs.Automaton.Trim
import PhraseSearch.Proofs.Grammar.Trim
import PhraseSearch.Proofs.Letter.Agreement
import PhraseSearch.Proofs.Search.Counterparts
import PhraseSearch.Proofs.Finder.Indexing
import PhraseSearch.Proofs.Rule.Elements
import PhraseSearch.Proofs.Rule.Lines
import PhraseSearch.Proofs.Rule.Writing
import PhraseSearch.Proofs.Rule.Printing
import PhraseSearch.Proofs.Grammar.Lines
import PhraseSearch.Proofs.Search.Chains
import PhraseSearch.Trie.Building
import PhraseSearch.Proofs.Trie.Building
import PhraseSearch.Proofs.Search.DepthFirst
import PhraseSearch.Proofs.Search.Reconstruction
import PhraseSearch.Trie.Slots
import PhraseSearch.Proofs.Trie.Slots
import PhraseSearch.Proofs.Trie.Changes
import PhraseSearch.Grammar.Reading
import PhraseSearch.Proofs.Grammar.Reading
import PhraseSearch.Grammar.Grafts
import PhraseSearch.Proofs.Grammar.Grafts
import PhraseSearch.Letter.Removal
import PhraseSearch.Letter.Cells
import PhraseSearch.Proofs.Letter.Bags
import PhraseSearch.Proofs.Letter.Cells
import PhraseSearch.Proofs.Letter.Removal
import PhraseSearch.Proofs.Letter.Counting
import PhraseSearch.Proofs.Letter.Ranking
import PhraseSearch.Proofs.Finder.Attaching
import PhraseSearch.Proofs.Network.Descendants
import PhraseSearch.Proofs.Network.References
import PhraseSearch.Proofs.Network.Images
import PhraseSearch.Proofs.Network.Copies
import PhraseSearch.Proofs.Network.Sharing
import PhraseSearch.Proofs.CommandLine.Reports
import PhraseSearch.Proofs.CommandLine.Files
import PhraseSearch.Proofs.CommandLine.Hosts
import PhraseSearch.Proofs.CommandLine.ShownGrammar
import PhraseSearch.Proofs.CommandLine.Searches
import PhraseSearch.Network.Traversal
import PhraseSearch.Proofs.Network.Reachable
import PhraseSearch.Proofs.Automaton.Traversal
import PhraseSearch.Proofs.Automaton.Drawing
import PhraseSearch.Proofs.Grammar.Drawing

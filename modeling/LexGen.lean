import LexGen.Dfa.Canonical
import LexGen.Dfa.Separation
import LexGen.Json.Reader
import LexGen.Nfa.Path
import LexGen.Rule.Language
import LexGen.Command.Directory
import LexGen.Main
import LexGen.Nfa.Closure
import LexGen.Proofs.Checked
import LexGen.Proofs.Discovery.Exploration
import LexGen.Proofs.Pattern.Reading
import LexGen.Proofs.Pattern.Spelling
import LexGen.Proofs.Pattern.Arrangement
import LexGen.Proofs.Pattern.Counting
import LexGen.Proofs.Pattern.Grammatical
import LexGen.Proofs.Nfa.Thompson
import LexGen.Proofs.Nfa.Compile
import LexGen.Proofs.Rule.Winner
import LexGen.Proofs.Rule.Blocks
import LexGen.Proofs.Rule.Built
import LexGen.Proofs.Dfa.Trim
import LexGen.Proofs.Dfa.Subsets
import LexGen.Proofs.Dfa.Determinized
import LexGen.Proofs.DisjointSets.Classes
import LexGen.Proofs.Dfa.Marks
import LexGen.Proofs.Dfa.Merge
import LexGen.Proofs.Dfa.Minimized
import LexGen.Proofs.Dfa.Minimality
import LexGen.Proofs.Dfa.Uniqueness
import LexGen.Proofs.Scan.Longest
import LexGen.Proofs.Lexer.Stages
import LexGen.Proofs.Lexer.Priority
import LexGen.Proofs.Lexer.Outcome
import LexGen.Proofs.Lexer.LongestMatch
import LexGen.Proofs.Lexer.Canonicity
import LexGen.Proofs.Lexer.Viability
import LexGen.Proofs.Scan.Rejoined
import LexGen.Scan.Saved
import LexGen.Proofs.Scan.Safety
import LexGen.Proofs.Json.RoundTrip
import LexGen.Proofs.Table.Stored
import LexGen.Proofs.Lexer.Reloaded
import LexGen.Proofs.Scan.Fragmentwise
import LexGen.Proofs.Scan.Segmentation
import LexGen.Proofs.Scan.Policies
import LexGen.Proofs.Dfa.Numbering
import LexGen.Proofs.Scan.Greatest
import LexGen.Proofs.Dfa.Idempotent
import LexGen.Proofs.Table.Written
import LexGen.Proofs.Rule.Apart
import LexGen.Proofs.Pattern.Classes
import LexGen.Proofs.Pattern.Plain
import LexGen.Proofs.Pattern.Refused
import LexGen.Proofs.Dfa.Isomorphic
import LexGen.Proofs.Lexer.UnusedSymbols
import LexGen.Proofs.DisjointSets.Calls
import LexGen.Proofs.Rule.Sheet
import LexGen.Proofs.Command.TokenLines
import LexGen.Proofs.Dfa.Drawn
import LexGen.Proofs.Dfa.Filling
import LexGen.Proofs.Dfa.Access
import LexGen.Proofs.Command.Notes
import LexGen.Proofs.Command.Agreement
import LexGen.Proofs.Nfa.Framing
import LexGen.Proofs.Nfa.Search
import LexGen.Proofs.DisjointSets.Ranks
import LexGen.Proofs.Dfa.Worklist

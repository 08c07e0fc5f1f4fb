import LexGen.Dfa.Minimal
import LexGen.Scan.Scanner
import LexGen.Table.OfDfa

/-!
# Lexers

A lexer is made from a rule set in steps: one automaton for all rules, its deterministic form,
the minimal form of that, the table of the minimal form, and a scanner that walks the table. The
results of the steps are kept, so each can be looked at.
-/

namespace LexGen

/-- Why a rule set gives no lexer. A fault would be a mistake in the construction itself. -/
inductive LexerError where
  | rules (error : RuleError)
  | fault (fault : Fault)
  deriving DecidableEq, Repr

def LexerError.message : LexerError → String
  | rules error => error.message
  | fault cause => cause.message

structure Lexer where
  ruleSet : RuleSet
  alphabet : Alphabet
  combined : Combined
  determinized : Dfa
  minimized : Dfa
  scanner : Scanner

namespace Lexer

def ofRules (ruleSet : RuleSet) : Except LexerError Lexer := do
  let combined ← (Combined.ofRules ruleSet).mapError .rules
  let alphabet ← ruleSet.alphabet.mapError .rules
  let determinized ← (Dfa.ofCombined combined alphabet).mapError .fault
  let minimized ← (determinized.minimize alphabet).mapError .fault
  let table ← (Table.ofDfa minimized alphabet).mapError .fault
  return { ruleSet, alphabet, combined, determinized, minimized, scanner := .ofTable table }

/-- The lexer with another policy for what follows a match. -/
def withPolicy (lexer : Lexer) (policy : TrailingPolicy) : Lexer :=
  { lexer with scanner := { lexer.scanner with policy := policy } }

end Lexer

end LexGen
